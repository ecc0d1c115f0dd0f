import DistributedObjectStorage.Library.ReplicatedLogSafety

/-!
# Leader completeness and agreement on committed prefixes

A prefix is chosen once a majority acknowledged it in the term of its last
entry. Every later leader starts from it, so committed prefixes form a chain.
-/
namespace ReplicatedLog
open Quorum

variable {N E : Type*} (termOf : E → ℕ) (members : Finset N)

/-- The current-term rule is part of the definition: the last entry of a chosen
prefix was written in the very term whose acknowledgements are counted. -/
structure Chosen (s : State N E) (t : ℕ) (P : List E) : Prop where
  held : P <+: s.leaderLog t
  ends : ∃ Q e, P = Q ++ [e] ∧ termOf e = t
  quorum : ∃ Q, Majority members Q ∧ ∀ v ∈ Q, ∃ m, P.length ≤ m ∧ (v, t, m) ∈ s.acks

/-- Some prefix chosen by the given term covers the list. -/
def Committed (s : State N E) (T : ℕ) (P : List E) : Prop :=
  P = [] ∨ ∃ t C, t ≤ T ∧ Chosen termOf members s t C ∧ P <+: C

variable {termOf members} {s s' : State N E} {L M P P' : List E}

theorem Chosen.extends {t : ℕ} (h : Chosen termOf members s t P) (ext : Extends s s') :
    Chosen termOf members s' t P := by
  obtain ⟨Q, majority, acks⟩ := h.quorum
  refine ⟨h.held.trans (ext.leaderLog t), h.ends, Q, majority, fun v hv => ?_⟩
  obtain ⟨m, length, ack⟩ := acks v hv
  exact ⟨m, length, ext.acks ack⟩

theorem Committed.nil (T : ℕ) : Committed termOf members s T [] := .inl rfl

theorem Committed.extends {T T' : ℕ} (h : Committed termOf members s T P) (ext : Extends s s')
    (hT : T ≤ T') : Committed termOf members s' T' P := by
  rcases h with rfl | ⟨t, C, ht, chosen, hP⟩
  · exact .nil T'
  · exact .inr ⟨t, C, ht.trans hT, chosen.extends ext, hP⟩

/-- A nonempty coherent log is itself a prefix of the log of its last leader. -/
theorem Coherent.whole (h : Coherent termOf s L) (nonempty : L ≠ []) :
    L <+: s.leaderLog (lastTerm termOf L) := by
  obtain ⟨P, e, rfl⟩ := (List.eq_nil_or_concat' L).resolve_left nonempty
  rw [lastTerm_append]
  exact h P e (List.prefix_refl _)

theorem Coherent.term_le_last (h : Coherent termOf s L) (inv : Invariant termOf members s)
    {e : E} (he : e ∈ L) : termOf e ≤ lastTerm termOf L :=
  inv.leaderLog_term ((h.whole (List.ne_nil_of_mem he)).subset he)

/-- The two cases of the voting order: a later last term brings the log of a
later leader, an equal one brings a longer piece of the same leader's log. -/
theorem Invariant.upToDate_carries (h : Invariant termOf members s) {t : ℕ}
    (hL : Coherent termOf s L) (hM : Coherent termOf s M) (up : UpToDate termOf L M)
    (ends : ∃ Q e, P = Q ++ [e] ∧ termOf e = t) (held : P <+: M)
    (later : ∀ u c, t < u → u = lastTerm termOf L → s.leader u = some c → P <+: s.electionLog u) :
    P <+: L := by
  obtain ⟨Q, e, rfl, rfl⟩ := ends
  have he : e ∈ M := held.subset (by simp)
  have reached := hM.term_le_last h he
  rcases up with younger | ⟨same, longer⟩
  · have nonempty : L ≠ [] := by
      rintro rfl
      simp at younger
    have whole := hL.whole nonempty
    obtain ⟨c, hc⟩ : ∃ c, s.leader (lastTerm termOf L) = some c := by
      cases hl : s.leader (lastTerm termOf L) with
      | none =>
          rw [h.leaders.none _ hl] at whole
          exact absurd (List.prefix_nil.mp whole) nonempty
      | some c => exact ⟨c, rfl⟩
    obtain ⟨X, hX, -⟩ := h.leaders.tail _ c hc
    have start : s.electionLog (lastTerm termOf L) <+: s.leaderLog (lastTerm termOf L) :=
      hX ▸ List.prefix_append _ _
    refine (later _ c (by omega) rfl hc).trans ?_
    rcases List.prefix_or_prefix_of_prefix start whole with below | above
    · exact below
    · -- the last entry of `L` belongs to this term, so it was written after the election
      obtain ⟨R, x, rfl⟩ := (List.eq_nil_or_concat' L).resolve_left nonempty
      have old := h.logs.cand_term _ _ _ (h.leaders.cand _ c hc) x (above.subset (by simp))
      simp at old
  · have nonempty : L ≠ [] := by
      rintro rfl
      have := List.length_pos_of_mem he
      simp at longer
      simp [longer] at this
    have wholeL := hL.whole nonempty
    have wholeM := hM.whole (List.ne_nil_of_mem he)
    rw [← same] at wholeM
    exact held.trans (List.prefix_of_prefix_length_le wholeM wholeL longer)

variable [DecidableEq N]

/-- Leader completeness, by strong induction on the later leader's term. -/
theorem Invariant.leader_complete (h : Invariant termOf members s) {t : ℕ}
    (chosen : Chosen termOf members s t P) (u : ℕ) :
    ∀ c, t < u → s.leader u = some c → P <+: s.electionLog u := by
  induction u using Nat.strong_induction_on with
  | _ u ih =>
      intro c after hc
      obtain ⟨Q, hQ, acks⟩ := chosen.quorum
      obtain ⟨R, hR, votes⟩ := h.leaders.quorum u c hc
      obtain ⟨v, hv, hv'⟩ := hQ.meet hR
      obtain ⟨m, length, ack⟩ := acks v hv
      obtain ⟨M, late, hg, early⟩ := votes v hv'
      -- the common voter still held the prefix when it voted
      have held : P <+: M := by
        rcases h.acks.grant _ hg early t m ack after P chosen.held length with held | lost
        · exact held
        · obtain ⟨w, hw, upto, led, missing⟩ := lost
          obtain ⟨d, hd⟩ := Option.isSome_iff_exists.mp led
          simp only at upto
          exact absurd (ih w (by omega) d hw hd) missing
      obtain ⟨L, cand, up⟩ := h.ballots.grant_cand _ hg
      have same := h.ballots.cand_unique c u L _ cand (h.leaders.cand u c hc)
      subst same
      refine h.upToDate_carries (h.logs.cand c u _ cand) (h.logs.grant _ hg) up chosen.ends held ?_
      intro w d hw last hd
      refine ih w ?_ d hw hd
      have nonempty : s.electionLog u ≠ [] := by
        intro empty
        rw [empty] at last
        simp at last
        omega
      obtain ⟨R', x, hx⟩ := (List.eq_nil_or_concat' _).resolve_left nonempty
      have old := h.logs.cand_term c u _ cand x (by rw [hx]; simp)
      rw [hx, lastTerm_append] at last
      omega

theorem Committed.leaderLog {T T' : ℕ} (h : Committed termOf members s T P)
    (inv : Invariant termOf members s) (hT : T ≤ T') (led : (s.leader T').isSome) :
    P <+: s.leaderLog T' := by
  rcases h with rfl | ⟨t, C, ht, chosen, hP⟩
  · exact List.nil_prefix
  · obtain ⟨c, hc⟩ := Option.isSome_iff_exists.mp led
    rcases (ht.trans hT).eq_or_lt with rfl | later
    · exact hP.trans chosen.held
    · obtain ⟨X, hX, -⟩ := inv.leaders.tail T' c hc
      have start := inv.leader_complete chosen T' c later hc
      exact hP.trans (start.trans (hX ▸ List.prefix_append _ _))

/-- Committed prefixes are prefixes of one another. -/
theorem Committed.comparable {T T' : ℕ} (h : Committed termOf members s T P)
    (h' : Committed termOf members s T' P') (inv : Invariant termOf members s) :
    P <+: P' ∨ P' <+: P := by
  rcases h with rfl | ⟨t, C, ht, chosen, hP⟩
  · exact .inl List.nil_prefix
  rcases h' with rfl | ⟨t', C', ht', chosen', hP'⟩
  · exact .inr List.nil_prefix
  -- both chosen prefixes lie in the log of the later of their two leaders
  have led : ∀ {u D}, Chosen termOf members s u D → (s.leader u).isSome := by
    intro u D hD
    obtain ⟨Q, hQ, acks⟩ := hD.quorum
    obtain ⟨v, hv, -⟩ := hQ.meet hQ
    obtain ⟨m, -, ack⟩ := acks v hv
    exact (inv.acks.leader v u m ack).1
  rcases le_total t t' with hle | hle
  · have first := Committed.leaderLog (.inr ⟨t, C, hle, chosen, hP⟩) inv le_rfl (led chosen')
    exact List.prefix_or_prefix_of_prefix first (hP'.trans chosen'.held)
  · have second := Committed.leaderLog (.inr ⟨t', C', hle, chosen', hP'⟩) inv le_rfl (led chosen)
    exact List.prefix_or_prefix_of_prefix (hP.trans chosen.held) second

end ReplicatedLog
