import Mathlib.Data.Finset.Card

/-! Majorities of a finite membership. -/
namespace Quorum

variable {N : Type*} [DecidableEq N]

/-- More than half of the members, counted without division. -/
structure Majority (members Q : Finset N) : Prop where
  subset : Q ⊆ members
  card : members.card < 2 * Q.card

theorem Majority.meet {members Q R : Finset N} (hQ : Majority members Q)
    (hR : Majority members R) : ∃ v, v ∈ Q ∧ v ∈ R := by
  by_contra none
  have disjoint : Disjoint Q R := by
    rw [Finset.disjoint_left]
    intro v hv hv'
    exact none ⟨v, hv, hv'⟩
  have union : (Q ∪ R).card ≤ members.card :=
    Finset.card_le_card (Finset.union_subset hQ.subset hR.subset)
  rw [Finset.card_union_of_disjoint disjoint] at union
  have := hQ.card
  have := hR.card
  omega

end Quorum
