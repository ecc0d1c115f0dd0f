import Mathlib.Data.List.Nodup
import Mathlib.Tactic.Common

/-! Association lists, and such lists kept in order of recency: the reference
for a cache that forgets what was used least recently. -/
namespace AssocList

variable {K V : Type*} [DecidableEq K]

def find (l : List (K × V)) (k : K) : Option V := (l.find? (·.1 = k)).map (·.2)

def remove (l : List (K × V)) (k : K) : List (K × V) := l.filter (·.1 ≠ k)

/-- A hit moves the entry to the front. -/
def touch (l : List (K × V)) (k : K) : List (K × V) :=
  match find l k with
  | none => l
  | some v => (k, v) :: remove l k

/-- A new key goes to the front and may push the last entry out. -/
def insert (capacity : ℕ) (l : List (K × V)) (k : K) (v : V) : List (K × V) :=
  if (find l k).isSome then (k, v) :: remove l k
  else if capacity < l.length + 1 then ((k, v) :: l).dropLast
  else (k, v) :: l

/-- No key has two entries. -/
def Distinct (l : List (K × V)) : Prop := (l.map (·.1)).Nodup

section Members
variable {l : List (K × V)} {k k' : K} {v v' : V} {capacity : ℕ}

theorem mem_remove : (k', v') ∈ remove l k ↔ (k', v') ∈ l ∧ k' ≠ k := by
  simp [remove]

theorem mem_of_find (found : find l k = some v) : (k, v) ∈ l := by
  obtain ⟨⟨k', v'⟩, first, rfl⟩ := Option.map_eq_some_iff.mp found
  have same : k' = k := by simpa using List.find?_some first
  subst same
  exact List.mem_of_find?_eq_some first

theorem find_none : find l k = none ↔ ∀ v, (k, v) ∉ l := by
  simp only [find, Option.map_eq_none_iff, List.find?_eq_none, decide_eq_true_eq, Prod.forall]
  constructor
  · intro absent v member
    exact absent k v member rfl
  · rintro absent k' v member rfl
    exact absent v member

theorem Distinct.find_iff (distinct : Distinct l) : find l k = some v ↔ (k, v) ∈ l := by
  refine ⟨mem_of_find, fun member => ?_⟩
  cases found : find l k with
  | none => exact absurd member (find_none.mp found v)
  | some other =>
      have both := List.inj_on_of_nodup_map distinct (mem_of_find found) member rfl
      rw [(Prod.mk.inj both).2]

theorem mem_touch : (k', v') ∈ touch l k → (k', v') ∈ l := by
  intro member
  unfold touch at member
  split at member
  · exact member
  · next v found =>
      rcases List.mem_cons.mp member with same | other
      · rw [same]
        exact mem_of_find found
      · exact (mem_remove.mp other).1

/-- After an insertion the key holds the new value, if anything, and no other
key holds anything new. -/
theorem mem_insert (member : (k', v') ∈ insert capacity l k v) :
    (k' = k ∧ v' = v) ∨ (k' ≠ k ∧ (k', v') ∈ l) := by
  have split_cons {rest : List (K × V)} (absent : ∀ w, (k, w) ∉ rest) (sub : ∀ p ∈ rest, p ∈ l)
      (inside : (k', v') ∈ (k, v) :: rest) : (k' = k ∧ v' = v) ∨ (k' ≠ k ∧ (k', v') ∈ l) := by
    rcases List.mem_cons.mp inside with same | other
    · exact .inl (Prod.mk.inj same)
    · refine .inr ⟨?_, sub _ other⟩
      rintro rfl
      exact absent v' other
  unfold insert at member
  split at member
  · exact split_cons (fun w inside => (mem_remove.mp inside).2 rfl)
      (fun p inside => (List.mem_filter.mp inside).1) member
  · next missing =>
      have absent : ∀ w, (k, w) ∉ l := find_none.mp (Option.not_isSome_iff_eq_none.mp missing)
      split at member
      · exact split_cons absent (fun p inside => inside) (List.dropLast_subset _ member)
      · exact split_cons absent (fun p inside => inside) member

theorem length_remove_lt (found : find l k = some v) : (remove l k).length < l.length := by
  refine List.length_filter_lt_length_iff_exists.mpr ⟨(k, v), mem_of_find found, ?_⟩
  simp

theorem length_touch_le : (touch l k).length ≤ l.length := by
  unfold touch
  split
  · exact Nat.le_refl _
  · next found => exact length_remove_lt found

/-- What is pushed out keeps the list within its capacity. -/
theorem length_insert_le (fits : l.length ≤ capacity) : (insert capacity l k v).length ≤ capacity := by
  unfold insert
  split
  · next known =>
      obtain ⟨old, found⟩ := Option.isSome_iff_exists.mp known
      exact Nat.le_trans (length_remove_lt found) fits
  · split
    · rw [List.length_dropLast, List.length_cons, Nat.add_sub_cancel]
      exact fits
    · next room => exact Nat.le_of_not_lt room

end Members
end AssocList
