import Mathlib.Data.List.Nodup
import DistributedObjectStorage.Cluster.MetadataRepository

/-! The replica set of a key: distinct nodes of the ring, and no more than asked for. -/
namespace Dos.ControlPlane
open Std

namespace ConsistentHashRing

section Walk
variable {owners result : List Bytes} {maxDistinct : ℕ}

theorem walk_nodup (distinct : result.Nodup) (steps it : ℕ) :
    (walk owners maxDistinct steps it result).Nodup := by
  induction steps generalizing it result with
  | zero => exact distinct
  | succ steps ih =>
      unfold walk
      split
      · refine ih ?_ _
        split
        · exact distinct
        · next new => exact List.nodup_append_comm.mp (List.nodup_cons.mpr ⟨new, distinct⟩)
      · exact distinct

theorem walk_length (short : result.length ≤ maxDistinct) (steps it : ℕ) :
    (walk owners maxDistinct steps it result).length ≤ maxDistinct := by
  induction steps generalizing it result with
  | zero => exact short
  | succ steps ih =>
      unfold walk
      split
      · next room =>
          refine ih ?_ _
          split
          · exact short
          · rw [List.length_append, List.length_singleton]
            exact room
      · exact short

theorem walk_subset (known : ∀ id ∈ result, id ∈ owners) (steps : ℕ) {it : ℕ} (inside : it < owners.length) :
    ∀ id ∈ walk owners maxDistinct steps it result, id ∈ owners := by
  induction steps generalizing it result with
  | zero => exact known
  | succ steps ih =>
      unfold walk
      split
      · refine ih ?_ ?_
        · have own : owners.getD it [] ∈ owners := by
            simp [List.getD, List.getElem?_eq_getElem inside]
          split
          · exact known
          · intro id member
            rcases List.mem_append.mp member with old | new
            · exact known id old
            · rw [List.mem_singleton.mp new]
              exact own
        · split <;> omega
      · exact known

end Walk

/-- The owners of the positions, in ring order. -/
def owners (r : ConsistentHashRing) : List Bytes := r.ring.toList.map (·.2)

variable (r : ConsistentHashRing) (key : Bytes) (count : ℕ)

theorem lookupReplicas_nodup : (r.lookupReplicas key count).Nodup := by
  unfold lookupReplicas
  split
  · exact List.nodup_nil
  · exact walk_nodup List.nodup_nil _ _

theorem lookupReplicas_length : (r.lookupReplicas key count).length ≤ count := by
  unfold lookupReplicas
  split
  · exact Nat.zero_le _
  · have short : ([] : List Bytes).length ≤ min count r.physicalNodes.length := Nat.zero_le _
    exact Nat.le_trans (walk_length short _ _) (Nat.min_le_left _ _)

/-- A lookup on a ring with positions starts at one of them. -/
theorem start_lt (present : r.ring.isEmpty = false) :
    (if (r.ring.toList.takeWhile fun entry => entry.1 < hash64 key).length = r.ring.size then 0
      else (r.ring.toList.takeWhile fun entry => entry.1 < hash64 key).length) <
        (r.ring.toList.map (·.2)).length := by
  have positions : r.ring.toList.length = r.ring.size := ExtTreeMap.length_toList
  have some : r.ring.size ≠ 0 := by
    intro none
    rw [← positions, List.length_eq_zero_iff] at none
    rw [← ExtTreeMap.isEmpty_toList, none] at present
    exact absurd present (by decide)
  have bound := (List.takeWhile_sublist (l := r.ring.toList)
    fun entry : UInt64 × Bytes => decide (entry.1 < hash64 key)).length_le
  rw [List.length_map, positions]
  split <;> omega

theorem lookupReplicas_subset : ∀ id ∈ r.lookupReplicas key count, id ∈ r.owners := by
  unfold lookupReplicas
  split
  · exact List.forall_mem_nil _
  · next present =>
      have some : r.ring.isEmpty = false := by
        rw [← Bool.not_eq_true]
        exact fun none => present (.inl none)
      exact walk_subset (List.forall_mem_nil _) _ (r.start_lt key some)

end ConsistentHashRing

section Placement
variable (m : ClusterMap) (key : Bytes) (rf : ℕ)

theorem ClusterMap.placementFor_nodup : (m.placementFor key rf).Nodup := m.ring.lookupReplicas_nodup key rf

theorem ClusterMap.placementFor_length : (m.placementFor key rf).length ≤ rf :=
  m.ring.lookupReplicas_length key rf

theorem MetadataRepository.placementFor_subset (r : MetadataRepository) :
    ∀ id ∈ r.placementFor key rf, id ∈ r.cluster.ring.owners :=
  r.cluster.ring.lookupReplicas_subset key rf

end Placement
end Dos.ControlPlane
