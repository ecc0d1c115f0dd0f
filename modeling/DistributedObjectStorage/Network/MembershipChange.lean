import DistributedObjectStorage.Cluster.RaftMetadataSafety
import DistributedObjectStorage.Network.MetadataServer

/-!
# Adding a node through the metadata service

A request is served by the server it reaches, passed on to the leader that this
server has heard of, or refused. The control plane's `AddNode` returns nothing, so
the server that serves a request does not learn how its proposal ended.
-/
namespace Dos.ControlPlane
open Consensus

/-! ## The nodes of a replica -/

theorem MetadataRepository.addNode_ids (r : MetadataRepository) (node : NodeInfo) (id : Bytes) :
    id ∈ (r.addNode node).nodes.map (·.id) ↔ id = node.id ∨ id ∈ r.nodes.map (·.id) := by
  simp only [addNode, nodes, ClusterMap.addOrUpdateNode]
  split
  · next known =>
      rw [ClusterMap.any_id] at known
      rw [ClusterMap.map_replaceNode]
      constructor
      · exact .inr
      · rintro (rfl | old)
        · exact known
        · exact old
  · simp [or_comm]

theorem perform_keeps_nodes (r : MetadataRepository) (cmd : MetadataCommand) {id : Bytes}
    (there : id ∈ r.nodes.map (·.id)) : id ∈ (cmd.perform r).nodes.map (·.id) := by
  cases cmd with
  | registerObject loc => exact there
  | removeObject key =>
      simp only [MetadataCommand.perform, MetadataRepository.removeObject]
      split
      · exact there
      · split <;> exact there
  | addNode other address => exact (r.addNode_ids _ id).mpr (.inr there)
  | notSet => exact there

theorem applied_keeps_nodes (codec : CommandCodec) (entries : List LogEntry) {r : MetadataRepository} {id : Bytes}
    (there : id ∈ r.nodes.map (·.id)) : id ∈ (entries.foldl (apply codec) r).nodes.map (·.id) := by
  induction entries generalizing r with
  | nil => exact there
  | cons entry entries ih =>
      apply ih
      rw [apply]
      split
      · exact there
      · exact perform_keeps_nodes r _ there

/-- A replica that has applied the addition of a node lists the node. -/
theorem nodes_of_applied {codec : CommandCodec} (boot : MetadataRepository) {applied : List LogEntry} {entry : LogEntry}
    {id address : Bytes} (applies : entry ∈ applied) (parses : codec.parse entry.command = some (.addNode id address)) :
    id ∈ (repository codec boot applied).nodes.map (·.id) := by
  obtain ⟨before, after, -, performed⟩ := reflects_of_mem boot applies parses
  rw [performed]
  apply applied_keeps_nodes
  exact (MetadataRepository.addNode_ids _ _ id).mpr (.inl rfl)

/-! ## How a call ends -/

namespace Service
variable {g : Group} {s : Service} {call : Call} {k : ℕ} {status : Status}

/-- The ends of `ProposeAndWait` before its deadline: the proposal is refused, or
`WaitApplied` answers. -/
inductive Ends (s : Service) (call : Call) : Status → Prop
  | refused {term : ℕ} {status : Status} : call.phase = .termRead term →
      ((s.cluster.nodes call.node).node.propose call.command).2 = .error status → Ends s call status
  | answered {term ranIn index : ℕ} {status : Status} : call.phase = .proposed term ranIn index →
      (s.cluster.nodes call.node).node.waitApplied index term = some status → Ends s call status

/-- The call is running, and the action makes it return. -/
structure Returns (g : Group) (s : Service) (k : ℕ) (call : Call) (act : ServiceAction) (status : Status) : Prop where
  running : s.calls[k]? = some call
  ongoing : ∀ status, call.phase ≠ .returned status
  returned : (s.exec g act).calls[k]? = some { call with phase := .returned status }

theorem Returns.moved {act : ServiceAction} (returns : Returns g s k call act status) :
    (s.exec g act).calls[k]? ≠ some call := by
  intro same
  have phases := congrArg Call.phase (Option.some.inj (same.symm.trans returns.returned))
  exact returns.ongoing status phases

section Phases
variable {j : ℕ} {phase : CallPhase}

theorem setPhase_other (other : j ≠ k) (c : Call) : (s.setPhase j c phase).calls[k]? = s.calls[k]? :=
  List.getElem?_set_ne other

theorem setPhase_self (running : s.calls[k]? = some call) :
    (s.setPhase k call phase).calls[k]? = some { call with phase := phase } := by
  obtain ⟨inside, -⟩ := List.getElem?_eq_some_iff.mp running
  exact List.getElem?_set_self inside

theorem propose_other (other : j ≠ k) (c : Call) : (s.propose g j c).calls[k]? = s.calls[k]? := by
  unfold propose
  split
  · dsimp only
    split <;> exact setPhase_other other c
  · rfl

theorem wait_other (other : j ≠ k) (c : Call) : (s.wait j c).calls[k]? = s.calls[k]? := by
  unfold wait
  split
  · split
    · rfl
    · dsimp only
      split <;> exact setPhase_other other c
  · rfl

theorem timeout_other (other : j ≠ k) (c : Call) : (s.timeout j c).calls[k]? = s.calls[k]? := by
  unfold timeout
  split
  · exact setPhase_other other c
  · rfl

end Phases

/-- No step of the group and no other call makes a call return. -/
theorem Returns.cases {act : ServiceAction} (returns : Returns g s k call act status) :
    act = .propose k ∨ act = .wait k ∨ act = .timeout k := by
  have picked (j : ℕ) (f : Call → Service) (others : ∀ c, j ≠ k → (f c).calls[k]? = s.calls[k]?)
      (moved : ((s.calls[j]?).elim s f).calls[k]? ≠ some call) : j = k := by
    by_contra other
    apply moved
    cases s.calls[j]? with
    | none => exact returns.running
    | some c => exact (others c other).trans returns.running
  have moved := returns.moved
  cases act with
  | raft act =>
      have crashed (n : Bytes) : (s.calls.map (Call.crash n))[k]? ≠ some { call with phase := .returned status } := by
        rw [List.getElem?_map, returns.running, Option.map_some]
        intro same
        have phases := congrArg Call.phase (Option.some.inj same)
        unfold Call.crash at phases
        split at phases
        · next status' done => exact returns.ongoing status' done
        · split at phases
          · cases phases
          · exact returns.ongoing status phases
      cases act with
      | restart n => exact absurd returns.returned (crashed n)
      | _ => exact absurd returns.running moved
  | readTerm n command =>
      apply absurd _ moved
      change (s.readTerm g n command).calls[k]? = some call
      unfold readTerm
      split
      · obtain ⟨inside, -⟩ := List.getElem?_eq_some_iff.mp returns.running
        rw [List.getElem?_append_left inside]
        exact returns.running
      · exact returns.running
  | propose j =>
      obtain rfl := picked j _ (fun c other => propose_other other c) moved
      exact .inl rfl
  | wait j =>
      obtain rfl := picked j _ (fun c other => wait_other other c) moved
      exact .inr (.inl rfl)
  | timeout j =>
      obtain rfl := picked j _ (fun c other => timeout_other other c) moved
      exact .inr (.inr rfl)

theorem Returns.ends {act : ServiceAction} (returns : Returns g s k call act status) (inTime : act ≠ .timeout k) :
    Ends s call status := by
  have returned := returns.returned
  have idle : ¬ s.calls[k]? = some { call with phase := .returned status } := by
    intro same
    have phases := congrArg Call.phase (Option.some.inj (returns.running.symm.trans same))
    exact returns.ongoing status phases
  rcases returns.cases with rfl | rfl | rfl
  · simp only [exec, returns.running, Option.elim_some, propose] at returned
    split at returned
    · next term phase =>
        split at returned
        · next status' refused =>
            have same := returned.symm.trans (setPhase_self (by exact returns.running))
            cases congrArg Call.phase (Option.some.inj same)
            exact .refused phase refused
        · have same := returned.symm.trans (setPhase_self (by exact returns.running))
          cases congrArg Call.phase (Option.some.inj same)
    · exact absurd returned idle
  · simp only [exec, returns.running, Option.elim_some, wait] at returned
    split at returned
    · next term ranIn index phase =>
        split at returned
        · exact absurd returned idle
        · next status' answers =>
            have same : (s.setPhase k call (.returned status')).calls[k]? =
                some { call with phase := .returned status } := by
              split at returned <;> exact returned
            cases congrArg Call.phase (Option.some.inj (same.symm.trans (setPhase_self returns.running)))
            exact .answered phase answers
    · exact absurd returned idle
  · exact absurd rfl inTime

end Service
end Dos.ControlPlane

namespace Dos.Network
open Consensus ControlPlane

/-! ## The handlers -/

/-- What the forwarding client makes of its call: a failed call, or the answer of
the other server. The codes go over the wire one to one. -/
def RemoteMetadataView.addNode : Except Bytes Status → Status
  | .error message => .unavailable (text "AddNode RPC failed: " ++ message)
  | .ok ack => ack

/-- The answer to the client. A request that is served here has gone through
`repo_.AddNode`, which returns nothing. -/
def MetadataServiceImpl.addNode (route : Route) (forwardClient : Bytes → Except Bytes Status) : Status :=
  match route with
  | .reject => .unavailable (text "no metadata leader available")
  | .forward leader => RemoteMetadataView.addNode (forwardClient leader)
  | .serveHere => .success

/-- The three reads of `ResolveMutation` for a request that reaches the server of
a node when the group is in state `s`. -/
structure Resolution (g : Group) (n : Bytes) (s : Service) where
  first : Service
  second : Service
  third : Service
  toFirst : Relation.ReflTransGen (Service.system g).step s first
  toSecond : Relation.ReflTransGen (Service.system g).step first second
  toThird : Relation.ReflTransGen (Service.system g).step second third

section Requests
variable {g : Group} {book : MetadataAddresses g} {command n : Bytes} {s : Service}

def Resolution.route (book : MetadataAddresses g) (r : Resolution g n s) : Route :=
  resolveMutation (book.peerMetaAddr n)
    (some ((r.first.cluster.nodes n).node, (r.second.cluster.nodes n).node, (r.third.cluster.nodes n).node))

/-- A request on its way from server to server, up to its answer. Between any two
moments the group may do anything. A call that serves the request begins after the
routing, and `last` is the state in which it takes its last step. -/
inductive Handling (g : Group) (book : MetadataAddresses g) (command : Bytes) : Bytes → Service → Type
  | rejected {n : Bytes} {s : Service} (r : Resolution g n s) (route : r.route book = .reject) :
      Handling g book command n s
  | unreachable {n : Bytes} {s : Service} (r : Resolution g n s) {leader : Bytes}
      (route : r.route book = .forward leader) (message : Bytes) : Handling g book command n s
  | forwarded {n : Bytes} {s : Service} (r : Resolution g n s) {leader : Bytes}
      (route : r.route book = .forward leader) (next : Handling g book command (book.server leader) r.third) :
      Handling g book command n s
  | served {n : Bytes} {s : Service} (r : Resolution g n s) (route : r.route book = .serveHere) (last : Service)
      (toLast : Relation.ReflTransGen (Service.system g).step r.third last) (k : ℕ) (begun : r.third.calls.length ≤ k)
      (call : Call) (node : call.node = n) (proposes : call.command = command) (act : ServiceAction) (status : Status)
      (returns : Service.Returns g last k call act status) : Handling g book command n s

namespace Handling

def answer {n : Bytes} {s : Service} : Handling g book command n s → Status
  | .rejected r _ => MetadataServiceImpl.addNode (r.route book) fun _ => .error []
  | .unreachable r _ message => MetadataServiceImpl.addNode (r.route book) fun _ => .error message
  | .forwarded r _ next => MetadataServiceImpl.addNode (r.route book) fun _ => .ok next.answer
  | .served r _ _ _ _ _ _ _ _ _ _ _ => MetadataServiceImpl.addNode (r.route book) fun _ => .error []

/-- How the proposal ended whose server answered, if there was one. -/
def proposal {n : Bytes} {s : Service} : Handling g book command n s → Option Status
  | .rejected _ _ => none
  | .unreachable _ _ _ => none
  | .forwarded _ _ next => next.proposal
  | .served _ _ _ _ _ _ _ _ _ _ status _ => some status

/-- The entry that the request appended is committed, the replica that served the
request has applied it, and lists the node. -/
def Executed (codec : CommandCodec) (boot : MetadataRepository) (id : Bytes) {n : Bytes} {s : Service} :
    Handling g book command n s → Prop
  | .rejected _ _ => False
  | .unreachable _ _ _ => False
  | .forwarded _ _ next => next.Executed codec boot id
  | .served _ _ last _ _ _ call _ _ _ _ _ => ∃ term ranIn index, call.phase = .proposed term ranIn index ∧
      Committed last.cluster index (entryOf ranIn index call.command) ∧
      (last.cluster.nodes call.node).node.applied[index - 1]? = some (entryOf ranIn index call.command) ∧
      id ∈ (repository codec boot (last.cluster.nodes call.node).node.applied).nodes.map (·.id)

/-- The node is added when the client is told so, and a failed proposal is not
answered with Ok. -/
structure Honest (codec : CommandCodec) (boot : MetadataRepository) (id : Bytes) (h : Handling g book command n s) :
    Prop where
  added : h.answer.isOk = true → h.Executed codec boot id
  told : ∀ status, h.proposal = some status → status.isOk = false → h.answer.isOk = false

/-- The call that serves the request proposes in the term that it has read, its node
leads in that term until the call returns, and the deadline does not end the call. -/
def Undisturbed {n : Bytes} {s : Service} : Handling g book command n s → Prop
  | .rejected _ _ => True
  | .unreachable _ _ _ => True
  | .forwarded _ _ next => next.Undisturbed
  | .served _ _ last _ k _ call _ _ act _ _ => act ≠ .timeout k ∧ ∃ term index,
      call.phase = .proposed term term index ∧ (last.cluster.nodes call.node).node.role = .leader ∧
      (last.cluster.nodes call.node).node.currentTerm = term

variable {codec : CommandCodec} {id address : Bytes}

/-- A pass of `WaitApplied` at the leader of the term, which has its entry. -/
theorem waitApplied_leading {r : RaftNode} {index : ℕ} {status : Status} (here : termAt r.log index = r.currentTerm)
    (answers : r.waitApplied index r.currentTerm = some status) : index ≤ r.lastApplied ∧ status = .success := by
  unfold RaftNode.waitApplied at answers
  rw [RaftNode.termAtLocked, here] at answers
  by_cases early : r.lastApplied < index
  · simp [early] at answers
  · simp only [if_neg early, ne_eq, not_true_eq_false, if_false] at answers
    exact ⟨Nat.le_of_not_lt early, (Option.some.inj answers).symm⟩

/-- A leader still has at its index what it proposed in its term. -/
theorem proposal_held {last : Service} {call : Call} {term index : ℕ} (reachable : Service.Reachable g last)
    (running : call ∈ last.calls) (phase : call.phase = .proposed term term index)
    (leads : (last.cluster.nodes call.node).node.role = .leader)
    (current : (last.cluster.nodes call.node).node.currentTerm = term) :
    termAt (last.cluster.nodes call.node).node.log index = term := by
  obtain ⟨a, sound, related⟩ := reachable_service reachable
  have node := (related.related.nodes call.node (related.member call running)).node
  have placed := related.placed call running term term index phase
  have held := placed.held
  rw [← current, ← leader_holds sound node leads] at held
  obtain ⟨k, rfl⟩ : ∃ k, index = k + 1 := ⟨index - 1, by have := placed.first; omega⟩
  rw [Nat.add_sub_cancel] at held
  rw [termAt_succ held, current]

/-- A client is told the truth about an added node when nothing disturbs the call
that serves its request. -/
theorem addNode_honest (boot : MetadataRepository)
    (parses : codec.parse (codec.serialize (.addNode id address)) = some (.addNode id address))
    (reachable : Service.Reachable g s) (h : Handling g book (codec.serialize (.addNode id address)) n s)
    (undisturbed : h.Undisturbed) : h.Honest codec boot id := by
  induction h with
  | rejected r route =>
      refine ⟨fun ok => ?_, nofun⟩
      rw [answer, route] at ok
      cases ok
  | unreachable r route message =>
      refine ⟨fun ok => ?_, nofun⟩
      rw [answer, route] at ok
      cases ok
  | forwarded r route next ih =>
      have passed : (forwarded r route next).answer = next.answer := by
        rw [answer, route]
        rfl
      have honest := ih (((reachable.many r.toFirst).many r.toSecond).many r.toThird) undisturbed
      exact ⟨passed ▸ honest.added, passed ▸ honest.told⟩
  | served r route last toLast k begun call node proposes act status returns =>
      obtain ⟨inTime, term, index, phase, leads, current⟩ := undisturbed
      have reached := (((reachable.many r.toFirst).many r.toSecond).many r.toThird).many toLast
      have running := List.mem_of_getElem? returns.running
      have here := proposal_held reached running phase leads current
      cases returns.ends inTime with
      | refused early _ => cases early.symm.trans phase
      | answered waits answers =>
          cases waits.symm.trans phase
          rw [← current] at answers
          obtain ⟨done, rfl⟩ := waitApplied_leading (here.trans current.symm) answers
          obtain ⟨committed, applied⟩ := (proposal_applied_iff reached running phase done here).mpr rfl
          have listed := nodes_of_applied boot (List.mem_of_getElem? applied) (proposes ▸ parses)
          refine ⟨fun _ => ⟨_, _, index, phase, committed, applied, listed⟩, ?_⟩
          rintro _ ⟨⟩ failed
          cases failed

end Handling
end Requests

/-! ## Runs -/

/-- The proto3 encoding of the command that adds the node `d` at `h:1`. -/
def addD : Bytes := [0x1a, 0x08, 0x0a, 0x01, 0x64, 0x12, 0x03, 0x68, 0x3a, 0x31]

/-- Protobuf on that command and on the empty message. -/
def addDCodec : CommandCodec where
  serialize := fun cmd => if cmd = .addNode (text "d") (text "h:1") then addD else []
  parse := fun bytes =>
    if bytes = addD then some (.addNode (text "d") (text "h:1")) else if bytes = [] then some .notSet else none

/-- `alpha` leads and `beta` has heard of it. -/
def alphaLeads : List ServiceAction := raftRun (campaign alpha 0 gamma ++ ship alpha beta 1)

/-- A request that reaches a server now and is routed at once. -/
def Resolution.now (g : Group) (n : Bytes) (s : Service) : Resolution g n s := ⟨s, s, s, .refl, .refl, .refl⟩

/-- A call at `alpha` appends its entry, and `beta` stores it. -/
def alphaProposes : List ServiceAction := [.readTerm alpha addD, .propose 0]

def alphaAdds : List ServiceAction := alphaProposes ++ raftRun (ship alpha beta 1)

/-- `beta` forwards a request to `alpha`, which commits it. -/
def forwardedToAlpha :
    Handling trio trioAddresses (addDCodec.serialize (.addNode (text "d") (text "h:1"))) beta
      (Service.run trio alphaLeads) :=
  have toAlpha : (Resolution.now trio beta (Service.run trio alphaLeads)).route trioAddresses = .forward alpha := by
    decide +kernel
  .forwarded _ toAlpha <|
    .served (Resolution.now trio alpha _) (by decide +kernel) (Service.run trio (alphaLeads ++ alphaAdds))
      (Service.run_steps trio alphaLeads alphaAdds) 0 (by decide +kernel) ⟨alpha, addD, .proposed 1 1 1⟩ rfl
      (by decide) (.wait 0) .success ⟨by decide +kernel, by simp, by decide +kernel⟩

theorem addNode_honest_forwarded :
    forwardedToAlpha.answer = .success ∧ forwardedToAlpha.Executed addDCodec (.create 1) (text "d") := by
  have ok : forwardedToAlpha.answer = .success := by decide +kernel
  have undisturbed : forwardedToAlpha.Undisturbed :=
    ⟨by decide, 1, 1, rfl, by decide +kernel, by decide +kernel⟩
  have honest := Handling.addNode_honest (.create 1) (by decide) (Service.run_reachable trio alphaLeads)
    forwardedToAlpha undisturbed
  exact ⟨ok, honest.added (ok ▸ rfl)⟩

/-- The leader cannot reach its peers. -/
def cutOff :
    Handling trio trioAddresses (addDCodec.serialize (.addNode (text "d") (text "h:1"))) alpha
      (Service.run trio alphaLeads) :=
  .served (Resolution.now trio alpha _) (by decide +kernel)
    (Service.run trio (alphaLeads ++ alphaProposes))
    (Service.run_steps trio alphaLeads alphaProposes) 0 (by decide +kernel)
    ⟨alpha, addD, .proposed 1 1 1⟩ rfl (by decide) (.timeout 0) (.unavailable (text "timed out waiting for commit"))
    ⟨by decide +kernel, by simp, by decide +kernel⟩

/-- The client is told that the node is added. The proposal has timed out, and no
replica has applied anything. -/
theorem cutOff_answers_ok :
    cutOff.answer = .success ∧ cutOff.proposal = some (.unavailable (text "timed out waiting for commit")) ∧
      (∀ n ∈ trio.members,
        ((Service.run trio (alphaLeads ++ alphaProposes)).cluster.nodes n).node.applied = []) ∧
      ¬ cutOff.Honest addDCodec (.create 1) (text "d") := by
  have ok : cutOff.answer = .success := by decide +kernel
  refine ⟨ok, rfl, by decide +kernel, ?_⟩
  intro honest
  have told := honest.told _ rfl rfl
  rw [ok] at told
  cases told

end Dos.Network
