import Mathlib.Data.List.DropRight
import Mathlib.Tactic.Common

/-! Lists in lexicographic order, a proper prefix first. The lists with a given
prefix are an interval: they lie between the prefix and the list in which the
last letter that has a successor was replaced by it. -/
namespace PrefixRange
open Std

variable {α : Type*} [Ord α]

/-- No letter is greater. -/
def Greatest (t : α) : Prop := ∀ x : α, (compare x t).isLE

/-- Nothing lies between the two letters. -/
def Next (b b' : α) : Prop := ∀ x : α, compare x b' = .lt ↔ (compare x b).isLE

theorem compare_nil_ne_lt (k : List α) : compare k [] ≠ .lt := by
  cases k with
  | nil => exact nofun
  | cons x k =>
      rw [List.compare_cons_nil]
      exact nofun

variable [TransOrd α] [LawfulEqOrd α]

theorem eq_of_isLE {a b : α} (below : (compare a b).isLE) (above : (compare b a).isLE) : a = b := by
  cases order : compare a b with
  | lt => exact absurd above (OrientedCmp.not_isLE_of_lt order)
  | eq => exact LawfulEqCmp.eq_of_compare order
  | gt =>
      rw [order] at below
      cases below

/-- Above a list of greatest letters lies only what continues it. -/
theorem greatest_le_iff {tops : List α} (greatest : ∀ t ∈ tops, Greatest t) (k : List α) :
    (compare tops k).isLE ↔ tops <+: k := by
  induction tops generalizing k with
  | nil =>
      cases k with
      | nil => simp
      | cons x k => simp [List.compare_nil_cons]
  | cons t tops ih =>
      obtain ⟨top, rest⟩ := List.forall_mem_cons.mp greatest
      cases k with
      | nil => simp [List.compare_cons_nil]
      | cons x k =>
          rw [List.compare_cons_cons, Ordering.isLE_then_iff_and, List.cons_prefix_cons, ← ih rest]
          constructor
          · rintro ⟨below, strict | later⟩
            · have above := OrientedCmp.not_isLE_of_lt strict
              exact absurd (top x) above
            · exact ⟨eq_of_isLE below (top x), later⟩
          · rintro ⟨rfl, later⟩
            exact ⟨by simp, .inr later⟩

/-- The interval of a prefix that ends in a letter with a successor, followed by
greatest letters. -/
theorem between_iff_isPrefix {b b' : α} {tops : List α} (next : Next b b')
    (greatest : ∀ t ∈ tops, Greatest t) (p k : List α) :
    ((compare (p ++ b :: tops) k).isLE ∧ compare k (p ++ [b']) = .lt) ↔ p ++ b :: tops <+: k := by
  induction p generalizing k with
  | nil =>
      cases k with
      | nil => simp [List.compare_cons_nil]
      | cons x k =>
          simp only [List.nil_append, List.compare_cons_cons, Ordering.isLE_then_iff_and, List.cons_prefix_cons,
            Ordering.then_eq_lt, compare_nil_ne_lt, and_false, or_false, next x, greatest_le_iff greatest]
          constructor
          · rintro ⟨⟨below, strict | later⟩, above⟩
            · exact absurd above (OrientedCmp.not_isLE_of_lt strict)
            · exact ⟨eq_of_isLE below above, later⟩
          · rintro ⟨rfl, later⟩
            exact ⟨⟨by simp, .inr later⟩, by simp⟩
  | cons a p ih =>
      cases k with
      | nil => simp [List.compare_cons_nil]
      | cons x k =>
          have swap : compare x a = (compare a x).swap := OrientedCmp.eq_swap
          rw [List.cons_append, List.cons_append, List.compare_cons_cons, List.compare_cons_cons,
            List.cons_prefix_cons, ← ih, swap]
          cases order : compare a x with
          | lt =>
              have differs : a ≠ x := fun same => by simp [same] at order
              simp [differs]
          | gt =>
              have differs : a ≠ x := fun same => by simp [same] at order
              simp [differs]
          | eq => simp [LawfulEqCmp.eq_of_compare order]

end PrefixRange
