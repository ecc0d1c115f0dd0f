import DistributedObjectStorage.Cluster.RingDisruption
import DistributedObjectStorage.Common.Decimal

/-!
# The ring as a function of its nodes

As long as no two labels of virtual nodes hash to one position, a position
belongs to a node exactly if one of the node's labels hashes to it. How the
nodes came there does not show, and every node is met on one turn.
-/
namespace Dos.ControlPlane
open Std

namespace ConsistentHashRing

/-- The positions of a node. -/
def positions (vnodes : ℕ) (id : Bytes) : List UInt64 :=
  (List.range vnodes).map fun i => hash64 (vnodeLabel id i)

def labels (vnodes : ℕ) (ids : List Bytes) : List Bytes :=
  ids.flatMap fun id => (List.range vnodes).map (vnodeLabel id)

/-- `Hash64` keeps the labels of the nodes apart. -/
def Spread (vnodes : ℕ) (ids : List Bytes) : Prop :=
  ∀ label ∈ labels vnodes ids, ∀ label' ∈ labels vnodes ids, hash64 label = hash64 label' → label = label'

instance (vnodes : ℕ) (ids : List Bytes) : Decidable (Spread vnodes ids) :=
  inferInstanceAs (Decidable (∀ label ∈ labels vnodes ids, ∀ label' ∈ labels vnodes ids,
    hash64 label = hash64 label' → label = label'))

/-- The ring of some of the nodes `ids`: each has all its positions, and there
are no others. -/
structure Settled (vnodes : ℕ) (ids : List Bytes) (r : ConsistentHashRing) : Prop where
  count : r.vnodes = vnodes
  known : ∀ id ∈ r.physicalNodes, id ∈ ids
  distinct : r.physicalNodes.Nodup
  owner : ∀ (pos : UInt64) (id : Bytes),
    r.ring[pos]? = some id ↔ id ∈ r.physicalNodes ∧ pos ∈ positions vnodes id

/-! ## Labels -/

section Labels
variable {vnodes : ℕ} {ids : List Bytes} {id id' : Bytes}

/-- The node of a label is what stands before its last `#`. -/
theorem vnodeLabel_id {i i' : ℕ} (same : vnodeLabel id i = vnodeLabel id' i') : id = id' := by
  have front (id : Bytes) (i : ℕ) :
      (vnodeLabel id i).reverse.dropWhile isDigit = 35 :: id.reverse := by
    have digits : ∀ b ∈ (text (toString i)).reverse, isDigit b = true := by
      intro b member
      exact isDigit_of_mem_toString i b (List.mem_reverse.mp member)
    rw [vnodeLabel, List.reverse_append, List.dropWhile_append_of_pos digits, List.reverse_append]
    rfl
  have equal := congrArg (fun label : Bytes => label.reverse.dropWhile isDigit) same
  simp only [front] at equal
  exact List.reverse_injective (List.cons.inj equal).2

theorem Spread.owner_eq (spread : Spread vnodes ids) (known : id ∈ ids) (known' : id' ∈ ids) {pos : UInt64}
    (here : pos ∈ positions vnodes id) (there : pos ∈ positions vnodes id') : id = id' := by
  obtain ⟨i, inside, first⟩ := List.mem_map.mp here
  obtain ⟨i', inside', second⟩ := List.mem_map.mp there
  have label : vnodeLabel id i ∈ labels vnodes ids :=
    List.mem_flatMap.mpr ⟨id, known, List.mem_map_of_mem inside⟩
  have label' : vnodeLabel id' i' ∈ labels vnodes ids :=
    List.mem_flatMap.mpr ⟨id', known', List.mem_map_of_mem inside'⟩
  exact vnodeLabel_id (spread _ label _ label' (first.trans second.symm))

end Labels

/-! ## Changes -/

section Change
variable {vnodes : ℕ} {ids : List Bytes} {r : ConsistentHashRing} {id : Bytes}

theorem Settled.create (virtualNodesPerNode : ℕ) (ids : List Bytes) :
    Settled (create virtualNodesPerNode).vnodes ids (create virtualNodesPerNode) where
  count := rfl
  known := List.forall_mem_nil _
  distinct := List.nodup_nil
  owner := by
    intro pos id
    simp [ConsistentHashRing.create]

/-- A new node takes its own positions and no others. -/
theorem Settled.owner_addNode (settled : Settled vnodes ids r) (spread : Spread vnodes ids) (known : id ∈ ids)
    (new : id ∉ r.physicalNodes) (pos : UInt64) (owner : Bytes) :
    (r.addNode id).ring[pos]? = some owner ↔
      (owner ∈ r.physicalNodes ∨ owner = id) ∧ pos ∈ positions vnodes owner := by
  rw [getElem?_addNode new, settled.count]
  change r.ring[pos]?.or (if pos ∈ positions vnodes id then some id else none) = some owner ↔ _
  cases taken : r.ring[pos]? with
  | none =>
      -- a free position is none of the positions of the nodes before
      have free : ¬(owner ∈ r.physicalNodes ∧ pos ∈ positions vnodes owner) := by
        rw [← settled.owner, taken]
        simp
      rw [Option.none_or, Option.ite_none_right_eq_some, Option.some.injEq]
      constructor
      · rintro ⟨here, rfl⟩
        exact ⟨.inr rfl, here⟩
      · rintro ⟨before | rfl, here⟩
        · exact absurd ⟨before, here⟩ free
        · exact ⟨here, rfl⟩
  | some first =>
      obtain ⟨member, here⟩ := (settled.owner pos first).mp taken
      rw [Option.some_or, Option.some.injEq]
      constructor
      · rintro rfl
        exact ⟨.inl member, here⟩
      · rintro ⟨before | rfl, there⟩
        · exact spread.owner_eq (settled.known _ member) (settled.known _ before) here there
        · exact spread.owner_eq (settled.known _ member) known here there

theorem Settled.addNode (settled : Settled vnodes ids r) (spread : Spread vnodes ids) (known : id ∈ ids) :
    Settled vnodes ids (r.addNode id) := by
  by_cases old : id ∈ r.physicalNodes
  · rw [ConsistentHashRing.addNode, if_pos old]
    exact settled
  · have nodes : (r.addNode id).physicalNodes = r.physicalNodes ++ [id] := by
      rw [ConsistentHashRing.addNode, if_neg old]
    have count : (r.addNode id).vnodes = vnodes := by
      rw [ConsistentHashRing.addNode, if_neg old]
      exact settled.count
    refine ⟨count, ?_, ?_, ?_⟩
    · rw [nodes]
      intro node member
      rcases List.mem_append.mp member with before | new
      · exact settled.known node before
      · rw [List.mem_singleton.mp new]
        exact known
    · rw [nodes]
      exact List.nodup_append_comm.mp (List.nodup_cons.mpr ⟨old, settled.distinct⟩)
    · intro pos owner
      rw [nodes, List.mem_append, List.mem_singleton]
      exact settled.owner_addNode spread known old pos owner

theorem Settled.removeNode (settled : Settled vnodes ids r) (id : Bytes) :
    Settled vnodes ids (r.removeNode id) := by
  by_cases old : id ∈ r.physicalNodes
  · have nodes : (r.removeNode id).physicalNodes = r.physicalNodes.erase id := by
      rw [ConsistentHashRing.removeNode, if_pos old]
    have count : (r.removeNode id).vnodes = vnodes := by
      rw [ConsistentHashRing.removeNode, if_pos old]
      exact settled.count
    refine ⟨count, ?_, ?_, ?_⟩
    · rw [nodes]
      exact fun node member => settled.known node (List.mem_of_mem_erase member)
    · rw [nodes]
      exact settled.distinct.erase id
    · intro pos owner
      rw [ring_removeNode old, ExtTreeMap.getElem?_filter', Option.filter_eq_some_iff, settled.owner, nodes,
        settled.distinct.mem_erase_iff, decide_eq_true_eq]
      tauto
  · rw [ConsistentHashRing.removeNode, if_neg old]
    exact settled

end Change

/-! ## What a settled ring answers -/

section Lookup
variable {vnodes : ℕ} {ids : List Bytes} {r s : ConsistentHashRing} (settled : Settled vnodes ids r)
include settled

theorem Settled.mem_owners (some : 0 < vnodes) {id : Bytes} : id ∈ r.owners ↔ id ∈ r.physicalNodes := by
  rw [ConsistentHashRing.mem_owners]
  constructor
  · rintro ⟨pos, found⟩
    exact ((settled.owner pos id).mp found).1
  · intro member
    have first : hash64 (vnodeLabel id 0) ∈ positions vnodes id :=
      List.mem_map.mpr ⟨0, List.mem_range.mpr some, rfl⟩
    exact ⟨_, (settled.owner _ id).mpr ⟨member, first⟩⟩

/-- One turn meets each node. -/
theorem Settled.perm_visited (some : 0 < vnodes) (key : Bytes) :
    (r.visited key).eraseDups.Perm r.physicalNodes := by
  rw [List.perm_ext_iff_of_nodup (List.nodup_eraseDups _) settled.distinct]
  intro id
  rw [List.mem_eraseDups, mem_visited, settled.mem_owners some]

/-- Rings of the same nodes are the same ring. -/
theorem Settled.ring_eq (settled' : Settled vnodes ids s)
    (same : ∀ id, id ∈ r.physicalNodes ↔ id ∈ s.physicalNodes) : r.ring = s.ring := by
  refine ExtTreeMap.ext_getElem? fun {pos} => ?_
  apply Option.ext
  intro id
  rw [settled.owner, settled'.owner, same]

theorem Settled.lookup_eq (settled' : Settled vnodes ids s)
    (same : ∀ id, id ∈ r.physicalNodes ↔ id ∈ s.physicalNodes) (key : Bytes) :
    r.lookupPrimary key = s.lookupPrimary key ∧
      ∀ count, r.lookupReplicas key count = s.lookupReplicas key count := by
  have ring := settled.ring_eq settled' same
  have visited : r.visited key = s.visited key := by rw [ConsistentHashRing.visited, ring]; rfl
  have count : r.physicalNodes.length = s.physicalNodes.length :=
    ((List.perm_ext_iff_of_nodup settled.distinct settled'.distinct).mpr same).length_eq
  refine ⟨?_, fun wanted => ?_⟩
  · rw [lookupPrimary_eq, lookupPrimary_eq, visited]
  · rw [lookupReplicas_eq, lookupReplicas_eq, visited, count]

end Lookup

/-! ## Histories -/

/-- The node that a change adds. -/
def RingChange.added : RingChange → Option Bytes
  | .add id => some id
  | .remove _ => none

def history (virtualNodesPerNode : ℕ) (changes : List RingChange) : ConsistentHashRing :=
  changes.foldl exec (create virtualNodesPerNode)

theorem Settled.run {vnodes : ℕ} {ids : List Bytes} (spread : Spread vnodes ids) {changes : List RingChange}
    (known : ∀ id ∈ changes.filterMap RingChange.added, id ∈ ids) {r : ConsistentHashRing}
    (settled : Settled vnodes ids r) : Settled vnodes ids (changes.foldl exec r) := by
  induction changes generalizing r with
  | nil => exact settled
  | cons change changes ih =>
      cases change with
      | add id =>
          obtain ⟨first, rest⟩ := List.forall_mem_cons.mp known
          exact ih rest (settled.addNode spread first)
      | remove id => exact ih known (settled.removeNode id)

/-- Two histories that end with the same nodes place every key alike. -/
theorem placement_history_independent (virtualNodesPerNode : ℕ) (changes changes' : List RingChange)
    (spread : Spread (create virtualNodesPerNode).vnodes
      (changes.filterMap RingChange.added ++ changes'.filterMap RingChange.added))
    (same : ∀ id, id ∈ (history virtualNodesPerNode changes).physicalNodes ↔
      id ∈ (history virtualNodesPerNode changes').physicalNodes) (key : Bytes) :
    (history virtualNodesPerNode changes).lookupPrimary key =
        (history virtualNodesPerNode changes').lookupPrimary key ∧
      ∀ count, (history virtualNodesPerNode changes).lookupReplicas key count =
        (history virtualNodesPerNode changes').lookupReplicas key count := by
  have first := (Settled.create virtualNodesPerNode _).run spread
    fun id member => List.mem_append_left (changes'.filterMap RingChange.added) member
  have second := (Settled.create virtualNodesPerNode _).run spread
    fun id member => List.mem_append_right (changes.filterMap RingChange.added) member
  exact first.lookup_eq second same key

/-- A node that leaves and comes back. -/
def rejoined : List RingChange := [.add [97], .add [98], .remove [97], .add [97]]

def joinedOnce : List RingChange := [.add [97], .add [98]]

theorem placement_history_independent_rejoined :
    (history 1 rejoined).physicalNodes = [[98], [97]] ∧
      (history 1 rejoined).lookupReplicas [107] 2 = (history 1 joinedOnce).lookupReplicas [107] 2 := by
  obtain ⟨back, once⟩ : (history 1 rejoined).physicalNodes = [[98], [97]] ∧
      (history 1 joinedOnce).physicalNodes = [[97], [98]] := by decide +kernel
  have same : ∀ id, id ∈ (history 1 rejoined).physicalNodes ↔ id ∈ (history 1 joinedOnce).physicalNodes := by
    intro id
    rw [back, once]
    exact (List.Perm.swap _ _ []).mem_iff
  exact ⟨back, (placement_history_independent 1 rejoined joinedOnce (by decide +kernel) same [107]).2 2⟩

end ConsistentHashRing

/-! ## The cluster map -/

namespace ClusterMap

inductive ClusterChange where
  | addOrUpdate (node : NodeInfo)
  | remove (id : Bytes)
  deriving DecidableEq, Repr

/-- The node that is in the map after the change. -/
def ClusterChange.added : ClusterChange → Option Bytes
  | .addOrUpdate node => some node.id
  | .remove _ => none

def exec (m : ClusterMap) : ClusterChange → ClusterMap
  | .addOrUpdate node => m.addOrUpdateNode node
  | .remove id => (m.removeNode id).1

def history (virtualNodesPerNode : ℕ) (changes : List ClusterChange) : ClusterMap :=
  changes.foldl exec (create virtualNodesPerNode)

/-- The table and the ring have the same nodes. -/
structure InStep (vnodes : ℕ) (ids : List Bytes) (m : ClusterMap) : Prop where
  nodes : m.ring.physicalNodes = m.nodes.map (·.id)
  settled : m.ring.Settled vnodes ids

section Changes
variable {vnodes : ℕ} {ids : List Bytes} {m : ClusterMap}

theorem map_eraseP (nodes : List NodeInfo) (id : Bytes) :
    (nodes.eraseP (·.id = id)).map (·.id) = (nodes.map (·.id)).erase id := by
  rw [List.erase_eq_eraseP', List.eraseP_map]
  congr 2
  funext node
  exact (beq_eq_decide node.id id).symm

theorem InStep.addOrUpdateNode (inStep : InStep vnodes ids m)
    (spread : ConsistentHashRing.Spread vnodes ids) {node : NodeInfo} (known : node.id ∈ ids) :
    InStep vnodes ids (m.addOrUpdateNode node) := by
  unfold ClusterMap.addOrUpdateNode
  split
  · exact ⟨inStep.nodes.trans (map_replaceNode node m.nodes).symm, inStep.settled⟩
  · next new =>
      have absent : node.id ∉ m.ring.physicalNodes := by
        rw [inStep.nodes, ← any_id]
        exact new
      refine ⟨?_, inStep.settled.addNode spread known⟩
      rw [ConsistentHashRing.addNode, if_neg absent, List.map_append, inStep.nodes]
      rfl

theorem InStep.removeNode (inStep : InStep vnodes ids m) (id : Bytes) :
    InStep vnodes ids (m.removeNode id).1 := by
  unfold ClusterMap.removeNode
  split
  · next here =>
      have member : id ∈ m.ring.physicalNodes := by
        rw [inStep.nodes, ← any_id]
        exact here
      refine ⟨?_, inStep.settled.removeNode id⟩
      rw [ConsistentHashRing.removeNode, if_pos member, inStep.nodes]
      exact (map_eraseP m.nodes id).symm
  · exact inStep

theorem InStep.run (spread : ConsistentHashRing.Spread vnodes ids) {changes : List ClusterChange}
    (known : ∀ id ∈ changes.filterMap ClusterChange.added, id ∈ ids) (inStep : InStep vnodes ids m) :
    InStep vnodes ids (changes.foldl exec m) := by
  induction changes generalizing m with
  | nil => exact inStep
  | cons change changes ih =>
      cases change with
      | addOrUpdate node =>
          obtain ⟨first, rest⟩ := List.forall_mem_cons.mp known
          exact ih rest (inStep.addOrUpdateNode spread first)
      | remove id => exact ih known (inStep.removeNode id)

end Changes

/-- Whatever nodes joined, changed and left: the replica set of a key are
exactly as many current nodes as asked for, all of them if there are fewer, the
primary first, and a smaller set is the front part of a larger one. -/
theorem placement_exact (virtualNodesPerNode : ℕ) (changes : List ClusterChange)
    (spread : ConsistentHashRing.Spread (create virtualNodesPerNode).ring.vnodes
      (changes.filterMap ClusterChange.added)) (key : Bytes) (rf : ℕ) :
    ((history virtualNodesPerNode changes).placementFor key rf).length =
        min rf (history virtualNodesPerNode changes).size ∧
      ((history virtualNodesPerNode changes).placementFor key rf).Nodup ∧
      (∀ id ∈ (history virtualNodesPerNode changes).placementFor key rf,
        id ∈ (history virtualNodesPerNode changes).nodes.map (·.id)) ∧
      (0 < rf → (history virtualNodesPerNode changes).nodes ≠ [] →
        ((history virtualNodesPerNode changes).placementFor key rf).head? =
          some ((history virtualNodesPerNode changes).primaryFor key)) ∧
      ∀ r ≤ rf, (history virtualNodesPerNode changes).placementFor key r <+:
        (history virtualNodesPerNode changes).placementFor key rf := by
  have inStep : InStep (create virtualNodesPerNode).ring.vnodes (changes.filterMap ClusterChange.added)
      (history virtualNodesPerNode changes) :=
    InStep.run spread (fun _ member => member) ⟨rfl, .create virtualNodesPerNode _⟩
  have some : 0 < (create virtualNodesPerNode).ring.vnodes := by
    simp only [create, ConsistentHashRing.create]
    split <;> omega
  generalize history virtualNodesPerNode changes = m at inStep ⊢
  have whole := inStep.settled.perm_visited some key
  have size : m.ring.physicalNodes.length = m.size := by rw [inStep.nodes, List.length_map]; rfl
  have placement (rf : ℕ) : m.placementFor key rf = (m.ring.visited key).eraseDups.take (min rf m.size) := by
    rw [← size]
    exact m.ring.lookupReplicas_eq key rf
  refine ⟨?_, m.placementFor_nodup key rf, ?_, ?_, ?_⟩
  · rw [placement, List.length_take, whole.length_eq, size]
    omega
  · intro id member
    rw [placement] at member
    rw [← inStep.nodes]
    exact whole.mem_iff.mp (List.mem_of_mem_take member)
  · intro positive present
    have members : 0 < m.size := List.length_pos_iff.mpr present
    rw [placement, primaryFor, ConsistentHashRing.lookupPrimary_eq]
    cases turn : m.ring.visited key with
    | nil =>
        rw [turn, List.eraseDups_nil] at whole
        have none : 0 = m.size := whole.length_eq.trans size
        omega
    | cons first rest =>
        rw [List.eraseDups_cons, List.head?_take, if_neg (by omega)]
        rfl
  · intro r fewer
    rw [placement, placement]
    exact List.take_prefix_take_left (by omega)

/-- A node changes its address, another one leaves and a third one joins. -/
def sampleChanges : List ClusterChange :=
  [.addOrUpdate ⟨[97], [1], .healthy, 0, 0⟩, .addOrUpdate ⟨[98], [2], .healthy, 0, 0⟩,
    .addOrUpdate ⟨[98], [3], .healthy, 0, 0⟩, .remove [97], .addOrUpdate ⟨[99], [4], .healthy, 0, 0⟩]

theorem placement_exact_changed :
    (history 1 sampleChanges).nodes.map (·.id) = [[98], [99]] ∧
      ((history 1 sampleChanges).placementFor [107] 3).length = min 3 (history 1 sampleChanges).size :=
  ⟨by decide +kernel, (placement_exact 1 sampleChanges (by decide +kernel) [107] 3).1⟩

end ClusterMap
end Dos.ControlPlane
