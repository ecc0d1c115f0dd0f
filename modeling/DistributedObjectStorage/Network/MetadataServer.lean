import DistributedObjectStorage.Cluster.RaftMetadataRepository
import DistributedObjectStorage.Consensus.LeaderHints

/-!
# Forwarding of mutations between metadata servers

A mutation that reaches a follower is passed on to the leader it has heard of.
That server decides anew, possibly much later. The hint that decides is read
under the node's mutex on its own, after the two reads of `leadership`.
-/
namespace Dos.Network
open Consensus ControlPlane

inductive Route where
  | serveHere
  | forward (address : Bytes)
  | reject
  deriving DecidableEq, Repr

def Route.toLeader (leaderAddress : Bytes) : Route :=
  if leaderAddress = [] then .reject else .forward leaderAddress

/-- The node as the three reads of `ResolveMutation` see it. -/
def resolveMutation (peerMetaAddr : Bytes → Option Bytes)
    (reads : Option (RaftNode × RaftNode × RaftNode)) : Route :=
  match leadership (reads.map fun (first, second, _) => (first, second)) with
  | .leader => .serveHere
  | .noLeader => .reject
  | .follower => .toLeader (leaderForwardAddress peerMetaAddr (reads.map fun (_, _, third) => third))

/-- The metadata addresses given to each server: those of its peers, and each
is served by the peer it is recorded for. -/
structure MetadataAddresses (g : Group) where
  peerMetaAddr : Bytes → Bytes → Option Bytes
  server : Bytes → Bytes
  peers : ∀ n ∈ g.members, ∀ id address, peerMetaAddr n id = some address →
    id ∈ g.peers n ∧ server address = id

/-- A mutation handled by the server of one node, with the states of the group
at the three reads. -/
structure Visit where
  node : Bytes
  first : HintedCluster
  second : HintedCluster
  third : HintedCluster

namespace Visit

variable {g : Group}

def read (v : Visit) (s : HintedCluster) : RaftNode := (s.cluster.nodes v.node).node

def route (book : MetadataAddresses g) (v : Visit) : Route :=
  resolveMutation (book.peerMetaAddr v.node) (some (v.read v.first, v.read v.second, v.read v.third))

/-- The reads are made in this order in one run. -/
structure Timed (g : Group) (v : Visit) : Prop where
  member : v.node ∈ g.members
  reachable : HintedCluster.Reachable g v.first
  second : Relation.ReflTransGen (HintedCluster.system g).step v.first v.second
  third : Relation.ReflTransGen (HintedCluster.system g).step v.second v.third

/-- The mutation goes on to the server at the address, later in the same run. -/
def ForwardedTo (book : MetadataAddresses g) (v v' : Visit) : Prop :=
  ∃ address, v.route book = .forward address ∧ v'.node = book.server address ∧
    Relation.ReflTransGen (HintedCluster.system g).step v.third v'.first

def hop (v : Visit) : Hop := ⟨v.third, v.node⟩

end Visit

section Forwarding
variable {g : Group} {book : MetadataAddresses g} {v v' : Visit} {address : Bytes}

theorem resolveMutation_forward {peerMetaAddr : Bytes → Option Bytes}
    {first second third : RaftNode}
    (forward : resolveMutation peerMetaAddr (some (first, second, third)) = .forward address) :
    peerMetaAddr third.leaderId = some address ∧ address ≠ [] := by
  unfold resolveMutation at forward
  split at forward
  · cases forward
  · cases forward
  · change Route.toLeader ((peerMetaAddr third.leaderId).getD []) = .forward address at forward
    unfold Route.toLeader at forward
    split at forward
    · cases forward
    · next known =>
        cases forward
        refine ⟨?_, known⟩
        cases found : peerMetaAddr third.leaderId with
        | none =>
            rw [found] at known
            exact absurd rfl known
        | some address => rfl

/-- A server forwards to a peer that its node has heard of, never to itself. -/
theorem Visit.route_forward (timed : v.Timed g) (forward : v.route book = .forward address) :
    v.hop.Away ∧ book.server address = v.hop.target := by
  have known := (resolveMutation_forward forward).1
  obtain ⟨peer, server⟩ := book.peers v.node timed.member _ _ known
  obtain ⟨member, other⟩ := (g.mem_peers v.node timed.member _).mp peer
  exact ⟨⟨fun empty => g.named (empty ▸ member), other⟩, server⟩

theorem Visit.Timed.hop (timed : v.Timed g) : HintedCluster.Reachable g v.hop.state :=
  (timed.reachable.many timed.second).many timed.third

theorem Visit.ForwardedTo.hop (timed : v.Timed g) (timed' : v'.Timed g)
    (forwarded : v.ForwardedTo book v') : v.hop.Then g v'.hop := by
  obtain ⟨address, forward, server, later⟩ := forwarded
  refine ⟨later.trans (timed'.second.trans timed'.third), ?_⟩
  exact server.trans (Visit.route_forward timed forward).2

theorem forwarding_cannot_cycle (g : Group) :
    (∀ s, HintedCluster.Reachable g s → ∀ k (ring : Fin (k + 2) → Bytes),
      (∀ i, ring i ∈ g.members) → Function.Injective ring →
      ¬ ∀ i, (s.cluster.nodes (ring i)).node.leaderId = ring (i + 1)) ∧
    (∀ hops : List Hop, (∀ h ∈ hops, HintedCluster.Reachable g h.state ∧ h.Away) →
      hops.IsChain (Hop.Then g) → hops.Pairwise (fun h h' => h.hintTerm < h'.hintTerm)) ∧
    ∀ (book : MetadataAddresses g) (visits : List Visit),
      (∀ v ∈ visits, v.Timed g ∧ ∃ address, v.route book = .forward address) →
      visits.IsChain (Visit.ForwardedTo book) →
      visits.Pairwise (fun v v' => v.third.hintTerm v.node < v'.third.hintTerm v'.node) := by
  refine ⟨fun s reachable k ring members distinct => reachable.no_ring members distinct,
    fun hops fine chain => Hop.climb fine chain, fun book visits fine chain => ?_⟩
  have away : ∀ h ∈ visits.map Visit.hop, HintedCluster.Reachable g h.state ∧ h.Away := by
    intro h mapped
    obtain ⟨v, here, rfl⟩ := List.mem_map.mp mapped
    obtain ⟨timed, address, forward⟩ := fine v here
    exact ⟨timed.hop, (Visit.route_forward timed forward).1⟩
  have hops : (visits.map Visit.hop).IsChain (Hop.Then g) := by
    rw [List.isChain_map]
    refine chain.imp_of_mem_imp (fun v v' here here' forwarded => ?_)
    exact forwarded.hop (fine v here).1 (fine v' here').1
  have climbed := Hop.climb away hops
  rw [List.pairwise_map] at climbed
  exact climbed

/-- Both peers hear of `alpha`; then `gamma` wins and only `alpha` hears of it. -/
def takeover : List Action :=
  campaign alpha 0 gamma ++ ship alpha beta 1 ++ ship alpha gamma 1 ++ campaign gamma 1 alpha ++
    ship gamma alpha 2

/-- Every server is told the address of each peer, here the peer's own id. -/
def trioAddresses : MetadataAddresses trio where
  peerMetaAddr := fun n id => if id ∈ trio.peers n then some id else none
  server := id
  peers := by
    intro n _ id address known
    simp only [Option.ite_none_right_eq_some, Option.some.injEq] at known
    exact ⟨known.1, known.2.symm⟩

def takeoverVisit (n : Bytes) : Visit :=
  ⟨n, .run trio takeover, .run trio takeover, .run trio takeover⟩

/-- `beta` still forwards to `alpha`, which forwards to `gamma`. -/
theorem forwarding_cannot_cycle_takeover :
    [takeoverVisit beta, takeoverVisit alpha].map (Visit.route trioAddresses) =
      [.forward alpha, .forward gamma] ∧
    (HintedCluster.run trio takeover).hintTerm beta <
      (HintedCluster.run trio takeover).hintTerm alpha := by
  have routes : [takeoverVisit beta, takeoverVisit alpha].map (Visit.route trioAddresses) =
      [.forward alpha, .forward gamma] := by
    decide +kernel
  obtain ⟨first, rest⟩ := List.cons_eq_cons.mp routes
  obtain ⟨second, -⟩ := List.cons_eq_cons.mp rest
  have reachable := HintedCluster.run_reachable trio takeover
  have climbs := (forwarding_cannot_cycle trio).2.2 trioAddresses
    [takeoverVisit beta, takeoverVisit alpha] ?_ ?_
  · have higher : (takeoverVisit beta).third.hintTerm (takeoverVisit beta).node <
        (takeoverVisit alpha).third.hintTerm (takeoverVisit alpha).node :=
      List.rel_of_pairwise_cons climbs (List.mem_singleton_self (takeoverVisit alpha))
    exact ⟨routes, higher⟩
  · intro v here
    rcases List.mem_cons.mp here with rfl | here
    · exact ⟨⟨by decide, reachable, .refl, .refl⟩, alpha, first⟩
    · rw [List.mem_singleton.mp here]
      exact ⟨⟨by decide, reachable, .refl, .refl⟩, gamma, second⟩
  · exact .cons_cons ⟨alpha, first, rfl, .refl⟩ (.singleton _)

end Forwarding
end Dos.Network
