import Mathlib.Data.List.Nodup
import Mathlib.Data.List.Rotate
import Mathlib.Data.List.Induction

/-!
# First occurrences in a list

`List.eraseDups` keeps the first occurrence of each element. It commutes with
filtering, and what it keeps of a longer list starts with what it keeps of a
shorter one.
-/
namespace List
variable {α : Type*} {l : List α}

/-- What is left of the first `m` elements are the first of what is left, and
no more than there are. -/
theorem filter_take_start {count bound m : ℕ} (p : α → Bool) (few : m ≤ count)
    (left : (l.filter p).length ≤ bound) :
    (l.take m).filter p <+: (l.filter p).take (min count bound) := by
  have start : l.take m <+: l := List.take_prefix m l
  have filtered : (l.take m).filter p <+: l.filter p := start.filter p
  refine List.prefix_take_iff.mpr ⟨filtered, Nat.le_min.mpr ⟨?_, ?_⟩⟩
  · exact Nat.le_trans (length_filter_le p _) (Nat.le_trans (length_take_le m l) few)
  · exact Nat.le_trans filtered.length_le left

/-- The first elements of a rotation, one at a time. -/
theorem take_rotate_succ {it steps : ℕ} (inside : it < l.length) (room : steps < l.length) :
    (l.rotate it).take (steps + 1) =
      l[it] :: (l.rotate (if it + 1 = l.length then 0 else it + 1)).take steps := by
  have wrapped : l.rotate (if it + 1 = l.length then 0 else it + 1) = l.rotate (it + 1) := by
    split
    · next last => rw [last, rotate_length, rotate_zero]
    · rfl
  have whole : l.rotate it = l[it] :: (l.drop (it + 1) ++ l.take it) := by
    rw [rotate_eq_drop_append_take (Nat.le_of_lt inside), drop_eq_getElem_cons inside, cons_append]
  have next : l.rotate (it + 1) = (l.drop (it + 1) ++ l.take it) ++ [l[it]] := by
    rw [rotate_eq_drop_append_take inside, take_succ_eq_append_getElem inside, append_assoc]
  have enough : steps ≤ (l.drop (it + 1) ++ l.take it).length := by
    rw [length_append, length_drop, length_take]
    omega
  rw [wrapped, whole, next, take_succ_cons, take_append_of_le_length enough]

section Firsts
variable [BEq α] [LawfulBEq α]

theorem eraseDups_concat_of_mem {a : α} (old : a ∈ l) : (l ++ [a]).eraseDups = l.eraseDups := by
  rw [eraseDups_append]
  simp [old, removeAll]

theorem eraseDups_concat_of_not_mem {a : α} (new : a ∉ l) :
    (l ++ [a]).eraseDups = l.eraseDups ++ [a] := by
  rw [eraseDups_append]
  simp [new, removeAll, eraseDups_cons]

theorem nodup_eraseDups (l : List α) : l.eraseDups.Nodup := by
  induction l using List.reverseRecOn with
  | nil => exact nodup_nil
  | append_singleton l a ih =>
      by_cases old : a ∈ l
      · rw [eraseDups_concat_of_mem old]
        exact ih
      · rw [eraseDups_concat_of_not_mem old]
        exact nodup_append_comm.mp (nodup_cons.mpr ⟨fun member => old (mem_eraseDups.mp member), ih⟩)

theorem filter_eraseDups (p : α → Bool) (l : List α) :
    l.eraseDups.filter p = (l.filter p).eraseDups := by
  induction l using List.reverseRecOn with
  | nil => rfl
  | append_singleton l a ih =>
      rw [filter_append]
      by_cases kept : p a = true
      · rw [filter_cons_of_pos kept, filter_nil]
        by_cases old : a ∈ l
        · rw [eraseDups_concat_of_mem old, eraseDups_concat_of_mem (mem_filter.mpr ⟨old, kept⟩), ih]
        · have new : a ∉ l.filter p := fun member => old (mem_filter.mp member).1
          rw [eraseDups_concat_of_not_mem old, eraseDups_concat_of_not_mem new, filter_append, ih,
            filter_cons_of_pos kept, filter_nil]
      · rw [filter_cons_of_neg kept, filter_nil, append_nil]
        by_cases old : a ∈ l
        · rw [eraseDups_concat_of_mem old, ih]
        · rw [eraseDups_concat_of_not_mem old, filter_append, ih, filter_cons_of_neg kept, filter_nil,
            append_nil]

theorem length_eraseDups_le {known : List α} (inside : ∀ a ∈ l, a ∈ known) :
    l.eraseDups.length ≤ known.length := by
  have subset : l.eraseDups ⊆ known := fun a member => inside a (mem_eraseDups.mp member)
  exact (nodup_eraseDups l).length_le_of_subset subset

end Firsts
end List
