import Mathlib.Tactic.Common
import DistributedObjectStorage.Common.Status

/-! A `std::map` is an extensional ordered map: what it holds is what its
lookups answer, and its iteration order is the key order. -/
namespace Dos
open Std

abbrev OrderedMap (α β : Type) [Ord α] := ExtTreeMap α β compare

namespace OrderedMap
variable {α β : Type} [Ord α] [TransOrd α] [LawfulEqOrd α]

theorem lookup_insert [DecidableEq α] (m : OrderedMap α β) (k a : α) (v : β) :
    (m.insert k v)[a]? = if k = a then some v else m[a]? := by
  rw [ExtTreeMap.getElem?_insert]
  simp

theorem lookup_insert_self (m : OrderedMap α β) (k : α) (v : β) : (m.insert k v)[k]? = some v := by
  simp

theorem lookup_insert_ne (m : OrderedMap α β) {k a : α} (v : β) (other : k ≠ a) :
    (m.insert k v)[a]? = m[a]? := by
  rw [ExtTreeMap.getElem?_insert]
  simp [other]

theorem insert_found [DecidableEq α] {m : OrderedMap α β} {k : α} {v : β} (found : m[k]? = some v) :
    m.insert k v = m := by
  refine ExtTreeMap.ext_getElem? fun {a} => ?_
  rw [lookup_insert]
  split
  · next same => rw [← same, found]
  · rfl

omit [LawfulEqOrd α] in
theorem distinct_toList (m : OrderedMap α β) : m.toList.Pairwise fun p q => p.1 ≠ q.1 := by
  have keys : (m.toList.map Prod.fst).Nodup := by
    rw [ExtTreeMap.map_fst_toList_eq_keys]
    exact ExtTreeMap.nodup_keys
  exact List.pairwise_map.mp keys

end OrderedMap
end Dos
