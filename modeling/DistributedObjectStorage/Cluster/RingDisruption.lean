import DistributedObjectStorage.Cluster.Placement
import DistributedObjectStorage.Library.EraseDups
import DistributedObjectStorage.Library.Transition

/-!
# Replica sets when nodes come and go

`LookupReplicas` takes the first distinct owners met on one turn around the
ring. A ring with a node and the ring without it meet the other owners in the
same order, so the replica sets differ by that node and by what takes its place
at the end.
-/
namespace Dos.ControlPlane
open Std Transition

namespace ConsistentHashRing

/-! ## One turn around the ring -/

/-- The owners in the order of the walk: from the key's position to the end of
the ring, and then from its start. -/
def visited (r : ConsistentHashRing) (key : Bytes) : List Bytes :=
  ((r.ring.toList.filter fun entry => hash64 key ≤ entry.1) ++
    r.ring.toList.filter fun entry => entry.1 < hash64 key).map (·.2)

/-- The walk collects the first occurrences, up to its limit. -/
theorem walk_eq {owners seen : List Bytes} {maxDistinct steps it : ℕ} (inside : it < owners.length)
    (once : steps ≤ owners.length) (short : seen.eraseDups.length ≤ maxDistinct) :
    walk owners maxDistinct steps it seen.eraseDups =
      (seen ++ (owners.rotate it).take steps).eraseDups.take maxDistinct := by
  induction steps generalizing it seen with
  | zero => rw [walk, List.take_zero, List.append_nil, List.take_of_length_le short]
  | succ steps ih =>
      unfold walk
      split
      · next room =>
          have node : owners.getD it [] = owners[it] := by
            rw [List.getD_eq_getElem?_getD, List.getElem?_eq_getElem inside, Option.getD_some]
          have step : (if owners[it] ∈ seen.eraseDups then seen.eraseDups
              else seen.eraseDups ++ [owners[it]]) = (seen ++ [owners[it]]).eraseDups := by
            split
            · next old => rw [List.eraseDups_concat_of_mem (List.mem_eraseDups.mp old)]
            · next new =>
                rw [List.eraseDups_concat_of_not_mem fun member => new (List.mem_eraseDups.mpr member)]
          have still : (seen ++ [owners[it]]).eraseDups.length ≤ maxDistinct := by
            rw [← step]
            split
            · exact short
            · rw [List.length_append, List.length_singleton]
              exact room
          have wrapped : (if it + 1 = owners.length then 0 else it + 1) < owners.length := by
            split <;> omega
          simp only [node, step]
          rw [ih wrapped (by omega) still, List.take_rotate_succ inside once, List.append_assoc,
            List.singleton_append]
      · next full =>
          have exact : seen.eraseDups.length = maxDistinct := by omega
          rw [List.eraseDups_append, List.take_left' exact]

theorem takeWhile_sorted {entries : List (UInt64 × Bytes)}
    (sorted : entries.Pairwise fun a b => a.1 < b.1) (pos : UInt64) :
    (entries.takeWhile fun entry => entry.1 < pos) = entries.filter (fun entry => entry.1 < pos) ∧
      (entries.dropWhile fun entry => entry.1 < pos) = entries.filter fun entry => pos ≤ entry.1 := by
  induction entries with
  | nil => exact ⟨rfl, rfl⟩
  | cons entry entries ih =>
      obtain ⟨first, others⟩ := List.pairwise_cons.mp sorted
      obtain ⟨front, back⟩ := ih others
      by_cases before : entry.1 < pos
      · have notAfter : ¬ pos ≤ entry.1 := UInt64.not_le.mpr before
        simp [before, notAfter, front, back]
      · -- from the first entry that is not before the position on, none is
        have after : pos ≤ entry.1 := UInt64.not_lt.mp before
        have rest : ∀ other ∈ entries, ¬ other.1 < pos ∧ pos ≤ other.1 := by
          intro other member
          have beyond : pos ≤ other.1 := UInt64.le_trans after (UInt64.le_of_lt (first other member))
          exact ⟨UInt64.not_lt.mpr beyond, beyond⟩
        have none : (entries.filter fun entry => decide (entry.1 < pos)) = [] := by
          simp only [List.filter_eq_nil_iff, decide_eq_true_eq]
          exact fun other member => (rest other member).1
        have all : (entries.filter fun entry => decide (pos ≤ entry.1)) = entries := by
          simp only [List.filter_eq_self, decide_eq_true_eq]
          exact fun other member => (rest other member).2
        simp [before, after, none, all]

theorem sorted_toList (r : ConsistentHashRing) : r.ring.toList.Pairwise fun a b => a.1 < b.1 := by
  have keys := r.ring.ordered_keys
  rw [← ExtTreeMap.map_fst_toList_eq_keys, List.pairwise_map] at keys
  exact keys.imp fun less => Std.compare_eq_lt.mp less

section Lookup
variable (r : ConsistentHashRing) (key : Bytes) (count : ℕ)

/-- The owners, turned to the position where the lookups start. -/
theorem rotate_owners :
    (r.ring.toList.map (·.2)).rotate
        (if (r.ring.toList.takeWhile fun entry => entry.1 < hash64 key).length = r.ring.size then 0
          else (r.ring.toList.takeWhile fun entry => entry.1 < hash64 key).length) =
      r.visited key := by
  obtain ⟨front, back⟩ := takeWhile_sorted r.sorted_toList (hash64 key)
  have parts : r.ring.toList = (r.ring.toList.takeWhile fun entry => entry.1 < hash64 key) ++
      r.ring.toList.dropWhile fun entry => entry.1 < hash64 key := List.takeWhile_append_dropWhile.symm
  have size : (r.ring.toList.map (·.2)).length = r.ring.size := by
    rw [List.length_map, ExtTreeMap.length_toList]
  have turned : (r.ring.toList.map (·.2)).rotate
      (r.ring.toList.takeWhile fun entry => entry.1 < hash64 key).length = r.visited key := by
    rw [visited, ← front, ← back, ← List.map_rotate]
    nth_rewrite 1 [parts]
    rw [List.rotate_append_length_eq]
  split
  · next wrap =>
      rw [← turned, wrap, ← size, List.rotate_length, List.rotate_zero]
  · exact turned

theorem lookupReplicas_eq :
    r.lookupReplicas key count = (r.visited key).eraseDups.take (min count r.physicalNodes.length) := by
  unfold lookupReplicas
  split
  · next trivial =>
      rcases trivial with empty | none
      · have nothing : r.ring.toList = [] := by
          rwa [← List.isEmpty_iff, ExtTreeMap.isEmpty_toList]
        simp [visited, nothing]
      · simp [none]
  · next some =>
      have present : r.ring.isEmpty = false := by
        rw [← Bool.not_eq_true]
        exact fun none => some (.inl none)
      have size : (r.ring.toList.map (·.2)).length = r.ring.size := by
        rw [List.length_map, ExtTreeMap.length_toList]
      have turn := @walk_eq _ [] (min count r.physicalNodes.length) r.ring.size _ (r.start_lt key present)
        (Nat.le_of_eq size.symm) (Nat.zero_le _)
      rw [List.eraseDups_nil, List.nil_append, r.rotate_owners key] at turn
      have whole : (r.visited key).length = r.ring.size := by
        rw [← r.rotate_owners key, List.length_rotate, size]
      rw [List.take_of_length_le (Nat.le_of_eq whole)] at turn
      exact turn

/-- The primary is the first of the walk. -/
theorem lookupPrimary_eq : r.lookupPrimary key = (r.visited key).headD [] := by
  unfold lookupPrimary
  split
  · next empty =>
      have nothing : r.ring.toList = [] := by
        rwa [← List.isEmpty_iff, ExtTreeMap.isEmpty_toList]
      simp [visited, nothing]
  · next some =>
      have inside := r.start_lt key (Bool.not_eq_true _ ▸ some)
      rw [← r.rotate_owners key, List.headD_eq_head?_getD, List.head?_rotate inside,
        List.getD_eq_getElem?_getD]

end Lookup

/-! ## Rings with and without a node -/

theorem mem_owners {r : ConsistentHashRing} {id : Bytes} :
    id ∈ r.owners ↔ ∃ pos : UInt64, r.ring[pos]? = some id := by
  unfold owners
  rw [List.mem_map]
  constructor
  · rintro ⟨⟨pos, owner⟩, member, rfl⟩
    exact ⟨pos, ExtTreeMap.mem_toList_iff_getElem?_eq_some.mp member⟩
  · rintro ⟨pos, found⟩
    exact ⟨(pos, id), ExtTreeMap.mem_toList_iff_getElem?_eq_some.mpr found, rfl⟩

theorem mem_visited {r : ConsistentHashRing} {key id : Bytes} : id ∈ r.visited key ↔ id ∈ r.owners := by
  have split : ∀ entry : UInt64 × Bytes, hash64 key ≤ entry.1 ∨ entry.1 < hash64 key := by
    intro entry
    by_cases before : entry.1 < hash64 key
    · exact .inr before
    · exact .inl (UInt64.not_lt.mp before)
  simp only [visited, owners, List.mem_map, List.mem_append, List.mem_filter, decide_eq_true_eq,
    ← and_or_left, split, and_true]

/-- The owners of the ring are nodes. -/
def Owned (r : ConsistentHashRing) : Prop := ∀ id ∈ r.owners, id ∈ r.physicalNodes

/-- Taking a node's positions away takes its visits away. -/
theorem visited_without {r s : ConsistentHashRing} {id : Bytes}
    (without : s.ring = r.ring.filter fun _ owner => owner ≠ id) (key : Bytes) :
    (r.visited key).filter (· ≠ id) = s.visited key := by
  have entries : s.ring.toList = r.ring.toList.filter fun entry => entry.2 ≠ id := by
    rw [without, ExtTreeMap.toList_filter]
  simp only [visited, entries, List.filter_map, List.filter_append, List.filter_filter]
  congr 2
  · exact List.filter_congr fun entry _ => Bool.and_comm _ _
  · exact List.filter_congr fun entry _ => Bool.and_comm _ _

/-- The replica set of a ring, without a node, is the first part of the replica
set of the ring without that node. -/
theorem lookupReplicas_without {r s : ConsistentHashRing} {id : Bytes} (owned : s.Owned)
    (without : s.ring = r.ring.filter fun _ owner => owner ≠ id) (key : Bytes) (count : ℕ) :
    (r.lookupReplicas key count).filter (· ≠ id) <+: s.lookupReplicas key count := by
  have others : (r.visited key).eraseDups.filter (· ≠ id) = (s.visited key).eraseDups := by
    rw [List.filter_eraseDups, visited_without without]
  have few : ((r.visited key).eraseDups.filter (· ≠ id)).length ≤ s.physicalNodes.length := by
    rw [others]
    exact List.length_eraseDups_le fun id member => owned id (mem_visited.mp member)
  rw [lookupReplicas_eq, lookupReplicas_eq, ← others]
  exact List.filter_take_start _ (Nat.min_le_left _ _) few

theorem lookupPrimary_without {r s : ConsistentHashRing} {id : Bytes}
    (without : s.ring = r.ring.filter fun _ owner => owner ≠ id) (key : Bytes) :
    r.lookupPrimary key = id ∨ s.lookupPrimary key = r.lookupPrimary key := by
  rw [lookupPrimary_eq, lookupPrimary_eq, ← visited_without without]
  cases r.visited key with
  | nil => exact .inr rfl
  | cons owner rest =>
      by_cases same : owner = id
      · exact .inl same
      · exact .inr (by simp [same])

/-! ## Adding and removing -/

section Change
variable {r : ConsistentHashRing} {id : Bytes}

/-- The loop of `AddNode` fills free positions and leaves the others alone. -/
theorem getElem?_addLoop (ring : OrderedMap UInt64 Bytes) (id : Bytes) (labels : List ℕ) (pos : UInt64) :
    (labels.foldl (fun ring i => ring.insertIfNew (hash64 (vnodeLabel id i)) id) ring)[pos]? =
      ring[pos]?.or (if pos ∈ labels.map (fun i => hash64 (vnodeLabel id i)) then some id else none) := by
  induction labels generalizing ring with
  | nil => simp
  | cons i labels ih =>
      rw [List.foldl_cons, ih, ExtTreeMap.getElem?_insertIfNew, List.map_cons]
      by_cases here : hash64 (vnodeLabel id i) = pos
      · rw [here]
        cases taken : ring[pos]? with
        | none =>
            have free : pos ∉ ring := by
              rw [ExtTreeMap.mem_iff_isSome_getElem?, taken]
              exact Bool.false_ne_true
            simp [free]
        | some owner =>
            have used : pos ∈ ring := by
              rw [ExtTreeMap.mem_iff_isSome_getElem?, taken]
              rfl
            simp [used]
      · have elsewhere : ¬ pos = hash64 (vnodeLabel id i) := fun same => here same.symm
        simp [here, elsewhere]

theorem getElem?_addNode (new : id ∉ r.physicalNodes) (pos : UInt64) :
    (r.addNode id).ring[pos]? = r.ring[pos]?.or
      (if pos ∈ (List.range r.vnodes).map (fun i => hash64 (vnodeLabel id i)) then some id else none) := by
  rw [addNode, if_neg new]
  exact getElem?_addLoop r.ring id (List.range r.vnodes) pos

/-- Taking an added node's positions away gives the old ring. -/
theorem ring_addNode (owned : r.Owned) (new : id ∉ r.physicalNodes) :
    r.ring = (r.addNode id).ring.filter fun _ owner => owner ≠ id := by
  refine ExtTreeMap.ext_getElem? fun {pos} => ?_
  rw [ExtTreeMap.getElem?_filter', getElem?_addNode new]
  cases found : r.ring[pos]? with
  | none =>
      rw [Option.none_or]
      split
      · simp [Option.filter_some]
      · rfl
  | some owner =>
      have other : owner ≠ id := by
        intro same
        rw [same] at found
        exact new (owned id (mem_owners.mpr ⟨pos, found⟩))
      simp [Option.filter_some, other]

theorem Owned.addNode (owned : r.Owned) (id : Bytes) : (r.addNode id).Owned := by
  by_cases known : id ∈ r.physicalNodes
  · rw [ConsistentHashRing.addNode, if_pos known]
    exact owned
  · intro owner member
    have nodes : (r.addNode id).physicalNodes = r.physicalNodes ++ [id] := by
      rw [ConsistentHashRing.addNode, if_neg known]
    obtain ⟨pos, found⟩ := mem_owners.mp member
    rw [getElem?_addNode known, Option.or_eq_some_iff] at found
    rw [nodes]
    rcases found with old | ⟨-, new⟩
    · exact List.mem_append_left _ (owned owner (mem_owners.mpr ⟨pos, old⟩))
    · split at new
      · rw [← Option.some.inj new]
        exact List.mem_append_right _ (List.mem_singleton.mpr rfl)
      · contradiction

theorem ring_removeNode (known : id ∈ r.physicalNodes) :
    (r.removeNode id).ring = r.ring.filter fun _ owner => owner ≠ id := by
  rw [removeNode, if_pos known]

theorem Owned.removeNode (owned : r.Owned) (id : Bytes) : (r.removeNode id).Owned := by
  by_cases known : id ∈ r.physicalNodes
  · intro owner member
    have nodes : (r.removeNode id).physicalNodes = r.physicalNodes.erase id := by
      rw [ConsistentHashRing.removeNode, if_pos known]
    obtain ⟨pos, found⟩ := mem_owners.mp member
    rw [ring_removeNode known, ExtTreeMap.getElem?_filter', Option.filter_eq_some_iff,
      decide_eq_true_eq] at found
    rw [nodes]
    exact (List.mem_erase_of_ne found.2).mpr (owned owner (mem_owners.mpr ⟨pos, found.1⟩))
  · rw [ConsistentHashRing.removeNode, if_neg known]
    exact owned

end Change

/-! ## Histories of a ring -/

inductive RingChange where
  | add (id : Bytes)
  | remove (id : Bytes)
  deriving DecidableEq, Repr

def exec (r : ConsistentHashRing) : RingChange → ConsistentHashRing
  | .add id => r.addNode id
  | .remove id => r.removeNode id

def system (virtualNodesPerNode : ℕ) : System ConsistentHashRing :=
  .guarded exec (fun _ _ => True) (create virtualNodesPerNode)

theorem owned {vnodes : ℕ} {r : ConsistentHashRing} (reachable : (system vnodes).Reachable r) :
    r.Owned := by
  apply reachable.invariant
  · rintro _ rfl id member
    obtain ⟨pos, found⟩ := mem_owners.mp member
    exact absurd found (by simp [create])
  · rintro before _ _ owned ⟨change, -, rfl⟩
    cases change with
    | add id => exact owned.addNode id
    | remove id => exact owned.removeNode id

/-- An added node only displaces the last replicas of a key, and a removed node
is only replaced behind them. -/
theorem minimal_disruption {vnodes : ℕ} {r : ConsistentHashRing} (reachable : (system vnodes).Reachable r)
    (n key : Bytes) (count : ℕ) :
    (n ∉ r.physicalNodes →
      ((r.addNode n).lookupReplicas key count).filter (· ≠ n) <+: r.lookupReplicas key count ∧
      ((r.addNode n).lookupPrimary key = n ∨ (r.addNode n).lookupPrimary key = r.lookupPrimary key)) ∧
    (n ∈ r.physicalNodes →
      (r.lookupReplicas key count).filter (· ≠ n) <+: (r.removeNode n).lookupReplicas key count ∧
      (r.lookupPrimary key = n ∨ (r.removeNode n).lookupPrimary key = r.lookupPrimary key)) := by
  have owned := owned reachable
  constructor
  · intro new
    have without := ring_addNode owned new
    refine ⟨lookupReplicas_without owned without key count, ?_⟩
    rcases lookupPrimary_without without key with taken | same
    · exact .inl taken
    · exact .inr same.symm
  · intro known
    have without := ring_removeNode known
    exact ⟨lookupReplicas_without (owned.removeNode n) without key count,
      lookupPrimary_without without key⟩

/-- One node leaves a ring of two and a third one joins. -/
def replaced : ConsistentHashRing :=
  [RingChange.add [97], .add [98], .remove [97], .add [99]].foldl exec (create 2)

theorem minimal_disruption_replaced :
    ([100] ∉ replaced.physicalNodes ∧
      ((replaced.addNode [100]).lookupReplicas [107] 2).filter (· ≠ [100]) <+:
        replaced.lookupReplicas [107] 2) ∧
    [98] ∈ replaced.physicalNodes ∧
      (replaced.lookupReplicas [107] 2).filter (· ≠ [98]) <+:
        (replaced.removeNode [98]).lookupReplicas [107] 2 := by
  have reachable : (system 2).Reachable replaced :=
    (System.Reachable.start rfl).along (Along.of_forall (fun _ _ _ => trivial) _)
  have joining : [100] ∉ replaced.physicalNodes := by decide +kernel
  have leaving : [98] ∈ replaced.physicalNodes := by decide +kernel
  exact ⟨⟨joining, ((minimal_disruption reachable [100] [107] 2).1 joining).1⟩, leaving,
    ((minimal_disruption reachable [98] [107] 2).2 leaving).1⟩

end ConsistentHashRing
end Dos.ControlPlane
