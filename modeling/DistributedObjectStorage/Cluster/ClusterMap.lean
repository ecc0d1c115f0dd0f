import DistributedObjectStorage.Common.OrderedMap
import DistributedObjectStorage.Common.Sha256

/-! Membership and placement by consistent hashing. -/
namespace Dos.ControlPlane

inductive NodeState where
  | joining | healthy | suspect | unavailable | recovering
  deriving DecidableEq, Repr

structure NodeInfo where
  id : Bytes
  address : Bytes
  state : NodeState := .healthy
  capacityBytes : ℕ := 0
  lastHeartbeatMs : Int := 0
  deriving DecidableEq, Repr

structure ConsistentHashRing where
  vnodes : ℕ
  ring : OrderedMap UInt64 Bytes
  physicalNodes : List Bytes

namespace ConsistentHashRing

def create (virtualNodesPerNode : ℕ) : ConsistentHashRing where
  vnodes := if virtualNodesPerNode = 0 then 1 else virtualNodesPerNode
  ring := ∅
  physicalNodes := []

def vnodeLabel (id : Bytes) (i : ℕ) : Bytes := id ++ text "#" ++ text (toString i)

/-- A position that is taken keeps its owner. -/
def addNode (r : ConsistentHashRing) (id : Bytes) : ConsistentHashRing :=
  if id ∈ r.physicalNodes then r
  else
    { r with
      physicalNodes := r.physicalNodes ++ [id]
      ring := (List.range r.vnodes).foldl
        (fun ring i => ring.insertIfNew (hash64 (vnodeLabel id i)) id) r.ring }

def removeNode (r : ConsistentHashRing) (id : Bytes) : ConsistentHashRing :=
  if id ∈ r.physicalNodes then
    { r with
      physicalNodes := r.physicalNodes.erase id
      ring := r.ring.filter fun _ owner => owner ≠ id }
  else r

/-- The owner of the first position at or after the key's, from the start of
the ring when there is none. -/
def lookupPrimary (r : ConsistentHashRing) (key : Bytes) : Bytes :=
  if r.ring.isEmpty then []
  else
    let pos := hash64 key
    let lowerBound := (r.ring.toList.takeWhile fun entry => entry.1 < pos).length
    let it := if lowerBound = r.ring.size then 0 else lowerBound
    (r.ring.toList.map (·.2)).getD it []

/-- The clockwise walk of `LookupReplicas`: the steps left, the iterator as a
position among the owners in ring order, and the result so far. -/
def walk (owners : List Bytes) (maxDistinct : ℕ) : ℕ → ℕ → List Bytes → List Bytes
  | 0, _, result => result
  | steps + 1, it, result =>
      if result.length < maxDistinct then
        let node := owners.getD it []
        walk owners maxDistinct steps (if it + 1 = owners.length then 0 else it + 1)
          (if node ∈ result then result else result ++ [node])
      else result

def lookupReplicas (r : ConsistentHashRing) (key : Bytes) (count : ℕ) : List Bytes :=
  if r.ring.isEmpty ∨ count = 0 then []
  else
    let maxDistinct := min count r.physicalNodes.length
    let pos := hash64 key
    let lowerBound := (r.ring.toList.takeWhile fun entry => entry.1 < pos).length
    let it := if lowerBound = r.ring.size then 0 else lowerBound
    walk (r.ring.toList.map (·.2)) maxDistinct r.ring.size it []

end ConsistentHashRing

structure ClusterMap where
  nodes : List NodeInfo
  ring : ConsistentHashRing

namespace ClusterMap

def create (virtualNodesPerNode : ℕ) : ClusterMap := ⟨[], .create virtualNodesPerNode⟩

/-- Replace the first record with the id. -/
def replaceNode (node : NodeInfo) : List NodeInfo → List NodeInfo
  | [] => []
  | n :: rest => if n.id = node.id then node :: rest else n :: replaceNode node rest

def addOrUpdateNode (m : ClusterMap) (node : NodeInfo) : ClusterMap :=
  if m.nodes.any (·.id = node.id) then { m with nodes := replaceNode node m.nodes }
  else ⟨m.nodes ++ [node], m.ring.addNode node.id⟩

/-- The answer tells whether the node was there. -/
def removeNode (m : ClusterMap) (id : Bytes) : ClusterMap × Bool :=
  if m.nodes.any (·.id = id) then (⟨m.nodes.eraseP (·.id = id), m.ring.removeNode id⟩, true)
  else (m, false)

def size (m : ClusterMap) : ℕ := m.nodes.length

def placementFor (m : ClusterMap) (key : Bytes) (replicationFactor : ℕ) : List Bytes :=
  m.ring.lookupReplicas key replicationFactor

def primaryFor (m : ClusterMap) (key : Bytes) : Bytes := m.ring.lookupPrimary key

theorem map_replaceNode (node : NodeInfo) (nodes : List NodeInfo) :
    (replaceNode node nodes).map (·.id) = nodes.map (·.id) := by
  induction nodes with
  | nil => rfl
  | cons first rest ih =>
      unfold replaceNode
      split
      · next same => rw [List.map_cons, List.map_cons, same]
      · rw [List.map_cons, List.map_cons, ih]

theorem any_id {nodes : List NodeInfo} {id : Bytes} :
    nodes.any (·.id = id) = true ↔ id ∈ nodes.map (·.id) := by
  rw [List.any_eq_true, List.mem_map]
  simp only [decide_eq_true_eq]

end ClusterMap
end Dos.ControlPlane
