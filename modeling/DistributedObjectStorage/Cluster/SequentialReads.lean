import DistributedObjectStorage.Cluster.RaftMetadataSafety
import DistributedObjectStorage.Consensus.RaftBounds

/-!
# Reads on any replica

A replica answers reads from what it has applied. The repository has a mutex of
its own, so a read may also come between two entries that one critical section
applies. All answers, on all replicas and across restarts, are those of one
sequence of entries; a replica goes back in it only by a restart.
-/
namespace Dos.ControlPlane
open Consensus Transition
open ReplicatedLog (take_le)

inductive Query where
  | lookupObject (key : Bytes)
  | listObjects (pre : Bytes)
  | placementFor (key : Bytes) (rf : ℕ)
  deriving DecidableEq, Repr

def Query.request : Query → ControlRequest
  | .lookupObject key => .lookupObject key
  | .listObjects pre => .listObjects pre
  | .placementFor key rf => .placementFor key rf

def Query.ask (query : Query) (r : MetadataRepository) : ControlAnswer := (r.serve query.request).2

inductive Told where
  | read (query : Query) (answer : ControlAnswer)
  | acked (ack : Ack)
  deriving DecidableEq, Repr

/-- What a client was told, and how many entries the node had applied then. -/
structure Observation where
  node : Bytes
  incarnation : ℕ
  applied : ℕ
  told : Told
  deriving DecidableEq, Repr

/-- The service and its observations, the newest first. No step reads them. -/
structure ReadService where
  service : Service
  observed : List Observation

inductive ReadAction where
  | serve (act : ServiceAction)
  | read (n : Bytes) (query : Query)
  | readWithin (act : ServiceAction) (n : Bytes) (more : ℕ) (query : Query)
  deriving DecidableEq, Repr

namespace ReadService

def initial (g : Group) : ReadService := ⟨.initial g, []⟩

/-- A read on a replica that has applied the given number of entries. -/
def observe (codec : CommandCodec) (boot : MetadataRepository) (c : Cluster) (n : Bytes) (applied : ℕ)
    (query : Query) : Observation where
  node := n
  incarnation := c.incarnation n
  applied := ((c.nodes n).node.applied.take applied).length
  told := .read query (query.ask (repository codec boot ((c.nodes n).node.applied.take applied)))

def acknowledged (before after : Service) : List Observation :=
  (after.acks.take (after.acks.length - before.acks.length)).map fun ack =>
    ⟨ack.node, after.cluster.incarnation ack.node, (after.cluster.nodes ack.node).node.applied.length, .acked ack⟩

def serve (g : Group) (s : ReadService) (act : ServiceAction) : ReadService :=
  ⟨s.service.exec g act, acknowledged s.service (s.service.exec g act) ++ s.observed⟩

def exec (g : Group) (codec : CommandCodec) (boot : MetadataRepository) (s : ReadService) :
    ReadAction → ReadService
  | .serve act => s.serve g act
  | .read n query =>
      if n ∈ g.members then
        let applied := (s.service.cluster.nodes n).node.applied.length
        { s with observed := observe codec boot s.service.cluster n applied query :: s.observed }
      else s
  | .readWithin act n more query =>
      -- the section has applied `more` entries of those it is going to apply
      let next := (s.service.exec g act).cluster
      let applied := (s.service.cluster.nodes n).node.applied.length + more
      if n ∈ g.members ∧ next.incarnation n = s.service.cluster.incarnation n then
        { s with observed := observe codec boot next n applied query :: s.observed }.serve g act
      else s.serve g act

def run (g : Group) (codec : CommandCodec) (boot : MetadataRepository) (acts : List ReadAction) : ReadService :=
  acts.foldl (exec g codec boot) (initial g)

def system (g : Group) (codec : CommandCodec) (boot : MetadataRepository) : System ReadService :=
  .guarded (exec g codec boot) (fun _ _ => True) (initial g)

end ReadService

/-- The plain repository gives the answer after the first `applied` entries of the
sequence, and an acknowledged entry is one of these. -/
def Observation.Follows (codec : CommandCodec) (boot : MetadataRepository) (order : List LogEntry)
    (o : Observation) : Prop :=
  o.applied ≤ order.length ∧
    match o.told with
    | .read query answer => answer = query.ask (repository codec boot (order.take o.applied))
    | .acked ack => ack.ranIn = ack.term →
        ack.index ≤ o.applied ∧ order[ack.index - 1]? = some (entryOf ack.ranIn ack.index ack.command)

/-- One node of one incarnation does not go back. -/
def NotBack (later earlier : Observation) : Prop :=
  later.node = earlier.node → later.incarnation = earlier.incarnation → earlier.applied ≤ later.applied

section Order
variable {codec : CommandCodec} {boot : MetadataRepository} {o : Observation} {P order : List LogEntry}

theorem Observation.Follows.extend (h : o.Follows codec boot P) (short : P <+: order) :
    o.Follows codec boot order := by
  obtain ⟨inside, told⟩ := h
  have taken : order.take o.applied = P.take o.applied := by
    obtain ⟨rest, rfl⟩ := short
    exact List.take_append_of_le_length inside
  refine ⟨inside.trans short.length_le, ?_⟩
  cases kind : o.told with
  | read query answer =>
      rw [kind] at told
      dsimp only at told ⊢
      rw [taken]
      exact told
  | acked ack =>
      rw [kind] at told
      intro same
      obtain ⟨low, held⟩ := told same
      obtain ⟨bound, here⟩ := List.getElem?_eq_some_iff.mp held
      refine ⟨low, ?_⟩
      rw [← here]
      exact List.prefix_iff_getElem?.mp short _ bound

/-- Committed lists that explain one observation each have one among them, or the
empty one, that explains all. -/
theorem explained_together {g : Group} {a : Spec} (sound : Sound g a) {observed : List Observation}
    (each : ∀ o ∈ observed, ∃ t P, SpecCommitted g a t P ∧ o.Follows codec boot P) :
    ∃ t order, SpecCommitted g a t order ∧ ∀ o ∈ observed, o.Follows codec boot order := by
  induction observed with
  | nil => exact ⟨0, [], .nil 0, List.forall_mem_nil _⟩
  | cons o rest ih =>
      obtain ⟨first, others⟩ := List.forall_mem_cons.mp each
      obtain ⟨t, P, committed, follows⟩ := first
      obtain ⟨t', order, committed', all⟩ := ih others
      rcases committed.comparable committed' sound.invariant with short | long
      · exact ⟨t', order, committed', List.forall_mem_cons.mpr ⟨follows.extend short, all⟩⟩
      · refine ⟨t, P, committed, List.forall_mem_cons.mpr ⟨follows, fun other member => ?_⟩⟩
        exact (all other member).extend long

end Order

/-! ## What a step of the service does to a replica -/

section Service
variable {g : Group} {s : Service} {a : Spec}

/-- A step leaves the group alone or is one action of it. A pass that answers Ok
adds its acknowledgement, and nothing else does. -/
inductive Moves (g : Group) (s : Service) : Service → Prop
  | idle {s' : Service} : s'.cluster = s.cluster → s'.acks = s.acks → Moves g s s'
  | moved {s' : Service} (act : Action) : s'.cluster = s.cluster.exec g act → s'.acks = s.acks → Moves g s s'
  | acked {s' : Service} {call : Call} {term ranIn index : ℕ} {status : Status} : call ∈ s.calls →
      call.phase = .proposed term ranIn index →
      (s.cluster.nodes call.node).node.waitApplied index term = some status → status.isOk = true →
      s'.cluster = s.cluster →
      s'.acks = ⟨call.node, call.command, term, ranIn, index, s.cluster.history⟩ :: s.acks → Moves g s s'

theorem exec_moves (g : Group) (s : Service) (act : ServiceAction) : Moves g s (s.exec g act) := by
  have pick (k : ℕ) (f : Call → Service) (each : ∀ call ∈ s.calls, Moves g s (f call)) :
      Moves g s ((s.calls[k]?).elim s f) := by
    cases found : s.calls[k]? with
    | none => exact .idle rfl rfl
    | some call => exact each call (List.mem_of_getElem? found)
  cases act with
  | raft act => exact .moved act rfl rfl
  | readTerm n command =>
      simp only [Service.exec, Service.readTerm]
      split <;> exact .idle rfl rfl
  | propose k =>
      refine pick k _ fun call _ => ?_
      unfold Service.propose
      split
      · dsimp only
        split <;> exact .moved (.propose call.node call.command) rfl rfl
      · exact .idle rfl rfl
  | wait k =>
      refine pick k _ fun call running => ?_
      unfold Service.wait
      split
      · next term ranIn index phase =>
          split
          · exact .idle rfl rfl
          · next status done =>
              dsimp only
              split
              · next ok => exact .acked running phase done ok rfl rfl
              · exact .idle rfl rfl
      · exact .idle rfl rfl
  | timeout k =>
      refine pick k _ fun call _ => ?_
      unfold Service.timeout
      split <;> exact .idle rfl rfl

theorem exec_cluster (g : Group) (s : Service) (act : ServiceAction) :
    (s.exec g act).cluster = s.cluster ∨ ∃ act', (s.exec g act).cluster = s.cluster.exec g act' := by
  cases exec_moves g s act with
  | idle same _ => exact .inl same
  | moved act' moved _ => exact .inr ⟨act', moved⟩
  | acked _ _ _ _ same _ => exact .inl same

theorem exec_onward (h : ServiceOk g s a) (sound : Sound g a) (act : ServiceAction) (n : Bytes) :
    Cluster.Onward n s.cluster (s.exec g act).cluster := by
  have stays : Cluster.Onward n s.cluster s.cluster := .inl ⟨rfl, Nat.le_refl _⟩
  rcases exec_cluster g s act with same | ⟨act', moved⟩
  · rw [same]
    exact stays
  · rw [moved]
    rcases Cluster.exec_allowed g s.cluster act' with same | step
    · rw [same]
      exact stays
    · exact .step sound h.related step n

theorem applied_length {r : RaftNode} {n : Bytes} (node : NodeOk g a n r) : r.applied.length = r.commitIndex := by
  rw [node.applied, List.length_take, Nat.min_eq_left node.commit]

end Service

/-! ## Every run -/

section Reads
variable {g : Group} {codec : CommandCodec} {boot : MetadataRepository} {s : ReadService} {a : Spec}

/-- The node has applied as much as when it was observed, unless it restarted since. -/
structure Current (g : Group) (c : Cluster) (o : Observation) : Prop where
  member : o.node ∈ g.members
  past : o.incarnation ≤ c.incarnation o.node
  kept : o.incarnation = c.incarnation o.node → o.applied ≤ (c.nodes o.node).node.commitIndex

theorem Current.onward {c c' : Cluster} {o : Observation} (h : Current g c o)
    (onward : Cluster.Onward o.node c c') : Current g c' o := by
  have past := h.past
  rcases onward with ⟨same, low⟩ | restarted
  · refine ⟨h.member, same ▸ past, fun now => (h.kept ?_).trans low⟩
    rw [now, same]
  · exact ⟨h.member, by omega, fun now => by omega⟩

def Explained (g : Group) (codec : CommandCodec) (boot : MetadataRepository) (a : Spec) (o : Observation) : Prop :=
  ∃ t P, SpecCommitted g a t P ∧ o.Follows codec boot P

structure ReadOk (g : Group) (codec : CommandCodec) (boot : MetadataRepository) (s : ReadService) (a : Spec) :
    Prop where
  service : ServiceOk g s.service a
  explained : ∀ o ∈ s.observed, Explained g codec boot a o
  current : ∀ o ∈ s.observed, Current g s.service.cluster o
  ordered : s.observed.Pairwise NotBack

theorem Current.notBack {c : Cluster} {o earlier : Observation} (h : Current g c earlier)
    (now : o.incarnation = c.incarnation o.node) (upTo : (c.nodes o.node).node.commitIndex ≤ o.applied) :
    NotBack o earlier := by
  intro node incarnation
  have kept := h.kept
  rw [← node, ← incarnation] at kept
  exact (kept now).trans upTo

theorem ReadOk.observe (h : ReadOk g codec boot s a) {o : Observation} (explained : Explained g codec boot a o)
    (current : Current g s.service.cluster o) (last : ∀ earlier ∈ s.observed, NotBack o earlier) :
    ReadOk g codec boot { s with observed := o :: s.observed } a where
  service := h.service
  explained := List.forall_mem_cons.mpr ⟨explained, h.explained⟩
  current := List.forall_mem_cons.mpr ⟨current, h.current⟩
  ordered := List.pairwise_cons.mpr ⟨last, h.ordered⟩

/-- What a node has applied explains what it answers from any part of it. -/
theorem observe_explained {c : Cluster} (related : Refines g c a) {n : Bytes} (hn : n ∈ g.members) (applied : ℕ)
    (query : Query) : Explained g codec boot a (ReadService.observe codec boot c n applied query) := by
  have node := (related.nodes n hn).node
  refine ⟨(c.nodes n).node.currentTerm, (c.nodes n).node.applied, ?_, ?_⟩
  · rw [node.applied]
    exact node.committed
  · refine ⟨by simp [ReadService.observe], ?_⟩
    have part : (c.nodes n).node.applied.take ((c.nodes n).node.applied.take applied).length =
        (c.nodes n).node.applied.take applied := by
      rw [List.length_take, ← List.take_eq_take_min]
    simp only [ReadService.observe]
    rw [part]

theorem observe_current {c : Cluster} (related : Refines g c a) {n : Bytes} (hn : n ∈ g.members) (applied : ℕ)
    (query : Query) : Current g c (ReadService.observe codec boot c n applied query) := by
  refine ⟨hn, Nat.le_refl _, fun _ => ?_⟩
  calc ((c.nodes n).node.applied.take applied).length
      ≤ (c.nodes n).node.applied.length := List.length_take_le' _ _
    _ = (c.nodes n).node.commitIndex := applied_length (related.nodes n hn).node

theorem ReadOk.move (h : ReadOk g codec boot s a) (reach : g.spec.Reachable a) (act : ServiceAction) :
    ∃ a', Relation.ReflTransGen g.spec.step a a' ∧
      ReadOk g codec boot { s with service := s.service.exec g act } a' := by
  have sound : Sound g a := ⟨reach, h.service.related.indexed⟩
  obtain ⟨a', steps, next⟩ := h.service.next reach act
  have ext := ReplicatedLog.reachable_extends reach steps
  refine ⟨a', steps, next, fun o member => ?_, fun o member => ?_, h.ordered⟩
  · obtain ⟨t, P, committed, follows⟩ := h.explained o member
    exact ⟨t, P, committed.extends ext (Nat.le_refl _), follows⟩
  · exact (h.current o member).onward (exec_onward h.service sound act o.node)

/-- The acknowledgement of a step comes after everything observed before. -/
theorem ReadOk.acknowledge {before : Service} (h : ReadOk g codec boot s a) (sound : Sound g a)
    (placed : ∀ call ∈ before.calls, ∀ term ranIn index, call.phase = .proposed term ranIn index →
      Placed a s.service.cluster.history call.node call.command ranIn index)
    (member : ∀ call ∈ before.calls, call.node ∈ g.members) (moves : Moves g before s.service) :
    ReadOk g codec boot { s with observed := ReadService.acknowledged before s.service ++ s.observed } a := by
  have quiet (kept : s.service.acks = before.acks) :
      ReadOk g codec boot { s with observed := ReadService.acknowledged before s.service ++ s.observed } a := by
    have none : ReadService.acknowledged before s.service = [] := by
      simp [ReadService.acknowledged, kept]
    rw [none]
    exact h
  cases moves with
  | idle _ kept => exact quiet kept
  | moved _ _ kept => exact quiet kept
  | @acked call term ranIn index status running phase done ok cluster added =>
      have single : ReadService.acknowledged before s.service =
          [⟨call.node, s.service.cluster.incarnation call.node,
            (s.service.cluster.nodes call.node).node.applied.length,
            .acked ⟨call.node, call.command, term, ranIn, index, before.cluster.history⟩⟩] := by
        simp [ReadService.acknowledged, added]
      have node := (h.service.related.nodes call.node (member call running)).node
      rw [← cluster] at done
      obtain ⟨applied, here⟩ := waitApplied_ok done ok
      rw [single]
      refine h.observe ?_ ⟨member call running, Nat.le_refl _, fun _ => ?_⟩ (fun earlier old => ?_)
      · refine ⟨(s.service.cluster.nodes call.node).node.currentTerm,
          (s.service.cluster.nodes call.node).node.applied, ?_, Nat.le_refl _, fun same => ⟨?_, ?_⟩⟩
        · rw [node.applied]
          exact node.committed
        · rw [applied_length node, ← node.lastApplied]
          exact applied
        · exact (placed call running term ranIn index phase).applied sound node applied (here.trans same.symm)
      · exact (applied_length node).le
      · exact (h.current earlier old).notBack rfl (applied_length node).ge

theorem ReadOk.next (h : ReadOk g codec boot s a) (reach : g.spec.Reachable a) (act : ReadAction) :
    ∃ a', Relation.ReflTransGen g.spec.step a a' ∧ ReadOk g codec boot (s.exec g codec boot act) a' := by
  have sound : Sound g a := ⟨reach, h.service.related.indexed⟩
  -- a step of the service, with what is observed while it runs
  have serve (act : ServiceAction) (seen : List Observation)
      (during : ∀ a', ReadOk g codec boot { s with service := s.service.exec g act } a' →
        ReadOk g codec boot ⟨s.service.exec g act, seen⟩ a') :
      ∃ a', Relation.ReflTransGen g.spec.step a a' ∧
        ReadOk g codec boot (ReadService.serve g ⟨s.service, seen⟩ act) a' := by
    obtain ⟨a', steps, moved⟩ := h.move reach act
    have ext := ReplicatedLog.reachable_extends reach steps
    have grows : ∀ e ∈ s.service.cluster.history, e ∈ (s.service.exec g act).cluster.history := by
      rcases exec_cluster g s.service act with same | ⟨act', moved⟩
      · rw [same]
        exact fun e he => he
      · rw [moved]
        exact exec_grows s.service.cluster act'
    have sound' : Sound g a' := ⟨reach.many steps, moved.service.related.indexed⟩
    refine ⟨a', steps, (during a' moved).acknowledge sound' (fun call running term ranIn index phase => ?_)
      h.service.member (exec_moves g s.service act)⟩
    exact (h.service.placed call running term ranIn index phase).extends ext grows
  cases act with
  | serve act => exact serve act s.observed (fun a' moved => moved)
  | read n query =>
      refine ⟨a, .refl, ?_⟩
      simp only [ReadService.exec]
      split
      · next hn =>
          have related := h.service.related
          refine h.observe (observe_explained related hn _ query) (observe_current related hn _ query) ?_
          intro earlier old
          refine (h.current earlier old).notBack rfl ?_
          simp [ReadService.observe, applied_length (related.nodes n hn).node]
      · exact h
  | readWithin act n more query =>
      simp only [ReadService.exec]
      split
      · next within =>
          obtain ⟨hn, alive⟩ := within
          refine serve act _ (fun a' moved => ?_)
          have related := moved.service.related
          refine moved.observe (observe_explained related hn _ query) (observe_current related hn _ query) ?_
          intro earlier old
          -- the section has not lost what was applied when it began
          have grown : (s.service.cluster.nodes n).node.commitIndex ≤
              ((s.service.exec g act).cluster.nodes n).node.commitIndex := by
            rcases exec_onward h.service sound act n with ⟨-, low⟩ | restarted
            · exact low
            · omega
          refine (h.current earlier old).notBack alive ?_
          simp only [ReadService.observe, List.length_take, applied_length (related.nodes n hn).node,
            applied_length (h.service.related.nodes n hn).node]
          omega
      · exact serve act s.observed (fun a' moved => moved)

theorem reads_simulate (g : Group) (codec : CommandCodec) (boot : MetadataRepository) :
    (ReadService.system g codec boot).Simulates g.spec (ReadOk g codec boot) where
  start := by
    rintro _ rfl
    obtain ⟨a, first, ok⟩ := (service_simulates g).start _ rfl
    exact ⟨a, first, ok, List.forall_mem_nil _,
      List.forall_mem_nil _, List.Pairwise.nil⟩
  next := by
    rintro s _ a reach ok ⟨act, -, rfl⟩
    exact ok.next reach act

/-- There is one sequence of entries such that every answer of every replica is
that of the plain repository after a first part of it, acknowledged entries stand
in the part that their node had applied, and no node goes back without a restart. -/
theorem reads_in_one_order (reachable : (ReadService.system g codec boot).Reachable s) :
    ∃ order : List LogEntry, (∀ o ∈ s.observed, o.Follows codec boot order) ∧ s.observed.Pairwise NotBack := by
  obtain ⟨a, reached, ok⟩ := (reads_simulate g codec boot).reachable reachable
  have sound : Sound g a := ⟨reached, ok.service.related.indexed⟩
  obtain ⟨-, order, -, all⟩ := explained_together sound ok.explained
  exact ⟨order, all, ok.ordered⟩

/-- The leader acknowledges a registration and finds the key, a follower that has
not heard of the commit does not find it yet. -/
def staleFollower : List ReadAction :=
  (plainCall sampleBytes).map .serve ++ [.serve (.wait 0), .read alpha (.lookupObject (text "k")),
    .read beta (.lookupObject (text "k"))]

theorem reads_in_one_order_staleFollower :
    (ReadService.run trio sampleCodec (.create 1) staleFollower).observed.map (fun o => (o.node, o.applied)) =
      [(beta, 0), (alpha, 1), (alpha, 1)] ∧
    ∃ order : List LogEntry,
      (∀ o ∈ (ReadService.run trio sampleCodec (.create 1) staleFollower).observed,
        o.Follows sampleCodec (.create 1) order) ∧
      (ReadService.run trio sampleCodec (.create 1) staleFollower).observed.Pairwise NotBack := by
  have reachable : (ReadService.system trio sampleCodec (.create 1)).Reachable
      (ReadService.run trio sampleCodec (.create 1) staleFollower) :=
    (System.Reachable.start rfl).along (.of_forall (fun _ _ _ => trivial) _)
  exact ⟨by decide +kernel, reads_in_one_order reachable⟩

end Reads
end Dos.ControlPlane
