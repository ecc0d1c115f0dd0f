import DistributedObjectStorage.Library.ReplicatedLog

/-!
# Safety of leader-based log replication

One invariant in four groups. `Ballots` gives one leader per term, `Logs` gives
log matching. `Acks` is what replaces an induction over runs: an acknowledged
prefix is still in the acknowledging log unless a later leader lacked it, which
leader completeness then excludes by induction on terms.
-/
namespace ReplicatedLog
open Quorum

variable {N E : Type*} (termOf : E → ℕ) (members : Finset N)

structure Ballots (s : State N E) : Prop where
  cand_term : ∀ c t L, (c, t, L) ∈ s.candidacies → t ≤ s.term c
  cand_unique : ∀ c t L M, (c, t, L) ∈ s.candidacies → (c, t, M) ∈ s.candidacies → L = M
  grant_term : ∀ g ∈ s.grants, g.term ≤ s.term g.voter
  grant_vote : ∀ g ∈ s.grants, g.term = s.term g.voter → s.vote g.voter = some g.candidate
  grant_unique : ∀ g ∈ s.grants, ∀ g' ∈ s.grants, g.voter = g'.voter → g.term = g'.term →
    g.candidate = g'.candidate
  grant_cand : ∀ g ∈ s.grants, ∃ L, (g.candidate, g.term, L) ∈ s.candidacies ∧
    UpToDate termOf L g.log
  grant_late : ∀ g ∈ s.grants, g.late → (s.leader g.term).isSome

structure Leaders (s : State N E) : Prop where
  cand : ∀ t c, s.leader t = some c → (c, t, s.electionLog t) ∈ s.candidacies
  quorum : ∀ t c, s.leader t = some c →
    ∃ Q, Majority members Q ∧ ∀ v ∈ Q, ∃ M late, ⟨v, c, t, M, late⟩ ∈ s.grants ∧ ¬ late
  none : ∀ t, s.leader t = none → s.leaderLog t = []
  tail : ∀ t c, s.leader t = some c →
    ∃ X, s.leaderLog t = s.electionLog t ++ X ∧ ∀ e ∈ X, termOf e = t
  current : ∀ c, s.leader (s.term c) = some c → s.log c = s.leaderLog (s.term c)
  self : ∀ t c, s.leader t = some c →
    s.leaderLog t = s.electionLog t ∨ (c, t, (s.leaderLog t).length) ∈ s.acks

structure Logs (s : State N E) : Prop where
  log : ∀ v, Coherent termOf s (s.log v)
  leaderLog : ∀ t, Coherent termOf s (s.leaderLog t)
  cand : ∀ c t L, (c, t, L) ∈ s.candidacies → Coherent termOf s L
  grant : ∀ g ∈ s.grants, Coherent termOf s g.log
  log_term : ∀ v, ∀ e ∈ s.log v, termOf e ≤ s.term v
  cand_term : ∀ c t L, (c, t, L) ∈ s.candidacies → ∀ e ∈ L, termOf e < t

/-- A leader of a term in the given range did not start from the prefix. -/
def LostBy (s : State N E) (P : List E) (after upto : ℕ) : Prop :=
  ∃ u, after < u ∧ u ≤ upto ∧ (s.leader u).isSome ∧ ¬ P <+: s.electionLog u

structure Acks (s : State N E) : Prop where
  term : ∀ v t m, (v, t, m) ∈ s.acks → t ≤ s.term v
  leader : ∀ v t m, (v, t, m) ∈ s.acks → (s.leader t).isSome ∧ m ≤ (s.leaderLog t).length
  log : ∀ v t m, (v, t, m) ∈ s.acks → ∀ P, P <+: s.leaderLog t → P.length ≤ m →
    P <+: s.log v ∨ LostBy s P t (s.term v)
  grant : ∀ g ∈ s.grants, ¬ g.late → ∀ t m, (g.voter, t, m) ∈ s.acks → t < g.term →
    ∀ P, P <+: s.leaderLog t → P.length ≤ m → P <+: g.log ∨ LostBy s P t (g.term - 1)

structure Invariant (s : State N E) : Prop where
  ballots : Ballots termOf s
  leaders : Leaders termOf members s
  logs : Logs termOf s
  acks : Acks s

variable {termOf members} {s s' : State N E}

theorem Invariant.initial : Invariant termOf members (initial : State N E) := by
  refine ⟨⟨?_, ?_, ?_, ?_, ?_, ?_, ?_⟩, ⟨?_, ?_, ?_, ?_, ?_, ?_⟩, ⟨?_, ?_, ?_, ?_, ?_, ?_⟩,
    ⟨?_, ?_, ?_, ?_⟩⟩ <;> simp [ReplicatedLog.initial, Coherent.nil]

theorem LostBy.extends {P : List E} {t u u' : ℕ} (h : LostBy s P t u) (ext : Extends s s')
    (hu : u ≤ u') : LostBy s' P t u' := by
  obtain ⟨w, after, upto, led, lost⟩ := h
  obtain ⟨c, hc⟩ := Option.isSome_iff_exists.mp led
  refine ⟨w, after, upto.trans hu, ?_, ?_⟩
  · rw [ext.leader w c hc]; rfl
  · rwa [ext.electionLog w c hc]

variable (h : Invariant termOf members s)
include h

/-- Entries of a leader's log are never younger than its term. -/
theorem Invariant.leaderLog_term {t : ℕ} {e : E} (he : e ∈ s.leaderLog t) : termOf e ≤ t := by
  cases hl : s.leader t with
  | none => simp [h.leaders.none t hl] at he
  | some c =>
      obtain ⟨X, hX, terms⟩ := h.leaders.tail t c hl
      rw [hX, List.mem_append] at he
      rcases he with he | he
      · exact (h.logs.cand_term c t _ (h.leaders.cand t c hl) e he).le
      · exact (terms e he).le

/-- An acknowledged prefix of a leader log is a prefix of the earlier version. -/
theorem Invariant.ack_earlier (ext : Extends s s') {v : N}
    {t m : ℕ} (ack : (v, t, m) ∈ s.acks) {P : List E} (hP : P <+: s'.leaderLog t)
    (length : P.length ≤ m) : P <+: s.leaderLog t :=
  List.prefix_of_prefix_length_le hP (ext.leaderLog t)
    (length.trans (h.acks.leader v t m ack).2)

/-- Acknowledgements survive any step whose acting node keeps the prefixes it
shares with its leader; the second alternative only ever becomes available. -/
theorem Invariant.ack_kept (ext : Extends s s') {v : N}
    {t m : ℕ} (ack : (v, t, m) ∈ s.acks) {P : List E} (hP : P <+: s'.leaderLog t)
    (length : P.length ≤ m) (keep : P <+: s.log v → P <+: s'.log v ∨ LostBy s' P t (s'.term v)) :
    P <+: s'.log v ∨ LostBy s' P t (s'.term v) := by
  rcases h.acks.log v t m ack P (h.ack_earlier ext ack hP length) length with held | lost
  · exact keep held
  · exact .inr (lost.extends ext (ext.term v))

theorem Invariant.ack_leader (ext : Extends s s') {v : N} {t m : ℕ}
    (ack : (v, t, m) ∈ s.acks) : (s'.leader t).isSome ∧ m ≤ (s'.leaderLog t).length := by
  obtain ⟨led, length⟩ := h.acks.leader v t m ack
  obtain ⟨c, hc⟩ := Option.isSome_iff_exists.mp led
  constructor
  · rw [ext.leader t c hc]
    rfl
  · exact length.trans (ext.leaderLog t).length_le

theorem Invariant.ack_granted (ext : Extends s s') {g : Grant N E}
    (hg : g ∈ s.grants) (early : ¬ g.late) {t m : ℕ} (ack : (g.voter, t, m) ∈ s.acks)
    (before : t < g.term) {P : List E} (hP : P <+: s'.leaderLog t) (length : P.length ≤ m) :
    P <+: g.log ∨ LostBy s' P t (g.term - 1) := by
  rcases h.acks.grant g hg early t m ack before P (h.ack_earlier ext ack hP length) length with
    held | lost
  · exact .inl held
  · exact .inr (lost.extends ext (Nat.le_refl _))

/-- A vote cast now sees exactly the leaders elected so far, none of them in
its own term. -/
theorem Invariant.ack_fresh (ext : Extends s s') {v : N}
    {t m u : ℕ} (ack : (v, t, m) ∈ s.acks) (reached : s.term v ≤ u) (before : t < u)
    (vacant : ¬ (s.leader u).isSome) {P : List E} (hP : P <+: s'.leaderLog t) (length : P.length ≤ m) :
    P <+: s.log v ∨ LostBy s' P t (u - 1) := by
  rcases h.acks.log v t m ack P (h.ack_earlier ext ack hP length) length with held | lost
  · exact .inl held
  · obtain ⟨w, after, upto, led, missing⟩ := lost
    have apart : w ≠ u := by
      rintro rfl
      exact vacant led
    refine .inr (LostBy.extends ⟨w, after, ?_, led, missing⟩ ext (Nat.le_refl _))
    omega

variable [DecidableEq N]

/-- Two majorities share a voter, and a voter has one candidate per term. -/
theorem Invariant.elect_fresh {c : N} {t : ℕ} {Q : Finset N}
    (majority : Majority members Q) (other : s.leader t ≠ some c)
    (votes : ∀ v ∈ Q, ∃ M late, ⟨v, c, t, M, late⟩ ∈ s.grants) : s.leader t = none := by
  cases hl : s.leader t with
  | none => rfl
  | some d =>
      obtain ⟨R, hR, votes'⟩ := h.leaders.quorum t d hl
      obtain ⟨v, hv, hv'⟩ := majority.meet hR
      obtain ⟨M, late, hg⟩ := votes v hv
      obtain ⟨M', late', hg', -⟩ := votes' v hv'
      have same : c = d := h.ballots.grant_unique _ hg _ hg' rfl rfl
      exact absurd (hl.trans (congrArg some same.symm)) other

theorem Invariant.extends (step : Step termOf members s s') : Extends s s' := by
  cases step with
  | adoptTerm v t ht =>
      refine { Extends.refl s with term := ?_ }
      intro w
      by_cases hw : w = v
      · subst hw; simpa using ht.le
      · simp [hw]
  | stand c =>
      refine { Extends.refl s with term := ?_, candidacies := ?_, grants := ?_ }
      · intro w
        by_cases hw : w = c
        · subst hw; simp
        · simp [hw]
      · exact Set.subset_insert _ _
      · exact Set.subset_insert _ _
  | grant v c L hc hv hL =>
      exact { Extends.refl s with grants := Set.subset_insert _ _ }
  | elect c Q majority hc other votes =>
      -- no leader of this term existed, so nothing recorded is overwritten
      have fresh := h.elect_fresh majority other votes
      have apart : ∀ t d, s.leader t = some d → t ≠ s.term c := by
        rintro t d ht rfl
        rw [fresh] at ht
        cases ht
      refine { Extends.refl s with leader := ?_, electionLog := ?_, leaderLog := ?_ }
      · intro t d ht
        simpa [apart t d ht] using ht
      · intro t d ht
        simp [apart t d ht]
      · intro t
        by_cases ht : t = s.term c
        · subst ht; simp [h.leaders.none _ fresh]
        · simp [ht]
  | append c e hl he =>
      refine { Extends.refl s with leaderLog := ?_, acks := Set.subset_insert _ _ }
      intro t
      by_cases ht : t = s.term c
      · subst ht; simp [h.leaders.current c hl]
      · simp [ht]
  | accept v m L hl hm hL hcase hkeep =>
      exact { Extends.refl s with acks := Set.subset_insert _ _ }

theorem Invariant.ballots_step (step : Step termOf members s s') : Ballots termOf s' := by
  have ext := h.extends step
  have b := h.ballots
  have late : ∀ g ∈ s.grants, g.late → (s'.leader g.term).isSome := by
    intro g hg hlate
    obtain ⟨c, hc⟩ := Option.isSome_iff_exists.mp (b.grant_late g hg hlate)
    rw [ext.leader _ _ hc]
    rfl
  have termUp : ∀ g ∈ s.grants, g.term ≤ s'.term g.voter :=
    fun g hg => (b.grant_term g hg).trans (ext.term _)
  cases step with
  | adoptTerm v t ht =>
      refine { b with cand_term := ?_, grant_term := termUp, grant_vote := ?_, grant_late := late }
      · exact fun c u L hc => (b.cand_term c u L hc).trans (ext.term c)
      · intro g hg same
        by_cases hv : g.voter = v
        · -- the adopted term is new, so no earlier vote can belong to it
          have := b.grant_term g hg
          simp only [hv, Function.update_self] at this same
          omega
        · simp only [Function.update_of_ne hv] at same ⊢
          exact b.grant_vote g hg same
  | stand c =>
      refine ⟨?_, ?_, ?_, ?_, ?_, ?_, ?_⟩
      · rintro d u L (hd | hd)
        · cases hd; simp
        · exact (b.cand_term d u L hd).trans (ext.term d)
      · rintro d u L M (hd | hd) (hd' | hd')
        · cases hd; cases hd'; rfl
        · cases hd
          exact absurd (b.cand_term _ _ _ hd') (by omega)
        · cases hd'
          exact absurd (b.cand_term _ _ _ hd) (by omega)
        · exact b.cand_unique d u L M hd hd'
      · rintro g (rfl | hg)
        · simp
        · exact termUp g hg
      · rintro g (rfl | hg) same
        · simp
        · by_cases hv : g.voter = c
          · have := b.grant_term g hg
            simp only [hv, Function.update_self] at this same
            omega
          · simp only [Function.update_of_ne hv] at same ⊢
            exact b.grant_vote g hg same
      · rintro g (rfl | hg) g' (rfl | hg') voter same
        · rfl
        · have := b.grant_term g' hg'
          simp only at voter same
          rw [← voter, ← same] at this
          omega
        · have := b.grant_term g hg
          simp only at voter same
          rw [voter, same] at this
          omega
        · exact b.grant_unique g hg g' hg' voter same
      · rintro g (rfl | hg)
        · exact ⟨s.log c, Set.mem_insert _ _, UpToDate.refl _ _⟩
        · obtain ⟨L, hL, up⟩ := b.grant_cand g hg
          exact ⟨L, Set.mem_insert_of_mem _ hL, up⟩
      · rintro g (rfl | hg) hlate
        · exact hlate
        · exact late g hg hlate
  | grant v c L hc hv hL =>
      -- a vote already recorded in this term was for the same candidate
      have once : ∀ g ∈ s.grants, g.voter = v → g.term = s.term v → g.candidate = c := by
        intro g hg voter same
        have voted := b.grant_vote g hg (by rw [voter]; exact same)
        rw [voter] at voted
        rcases hv with hv | hv <;> rw [hv] at voted <;> cases voted
        rfl
      refine ⟨b.cand_term, b.cand_unique, ?_, ?_, ?_, ?_, ?_⟩
      · rintro g (rfl | hg)
        · exact Nat.le_refl _
        · exact b.grant_term g hg
      · rintro g (rfl | hg) same
        · simp
        · by_cases voter : g.voter = v
          · simp [voter, once g hg voter (by rw [← voter]; exact same)]
          · simp only [Function.update_of_ne voter]
            exact b.grant_vote g hg same
      · rintro g (rfl | hg) g' (rfl | hg') voter same
        · rfl
        · exact (once g' hg' voter.symm same.symm).symm
        · exact once g hg voter same
        · exact b.grant_unique g hg g' hg' voter same
      · rintro g (rfl | hg)
        · exact ⟨L, hc, hL⟩
        · exact b.grant_cand g hg
      · rintro g (rfl | hg) hlate
        · exact hlate
        · exact late g hg hlate
  | elect c Q majority hc other votes => exact { b with grant_late := late }
  | append c e hl he => exact { b with }
  | accept v m L hl hm hL hcase hkeep => exact { b with }

theorem Invariant.leaders_elect {c : N} {Q : Finset N}
    (majority : Majority members Q) (hc : (c, s.term c, s.log c) ∈ s.candidacies)
    (other : s.leader (s.term c) ≠ some c)
    (votes : ∀ v ∈ Q, ∃ M late, ⟨v, c, s.term c, M, late⟩ ∈ s.grants) :
    Leaders termOf members
      { s with
        leader := Function.update s.leader (s.term c) (some c)
        electionLog := Function.update s.electionLog (s.term c) (s.log c)
        leaderLog := Function.update s.leaderLog (s.term c) (s.log c) } := by
  have l := h.leaders
  have fresh := h.elect_fresh majority other votes
  refine ⟨?_, ?_, ?_, ?_, ?_, ?_⟩
  · intro t d ht
    by_cases same : t = s.term c
    · subst same
      simp only [Function.update_self, Option.some.injEq] at ht ⊢
      exact ht ▸ hc
    · simp only [Function.update_of_ne same] at ht ⊢
      exact l.cand t d ht
  · intro t d ht
    by_cases same : t = s.term c
    · subst same
      simp only [Function.update_self, Option.some.injEq] at ht
      subst ht
      refine ⟨Q, majority, fun v hv => ?_⟩
      obtain ⟨M, late, hg⟩ := votes v hv
      refine ⟨M, late, hg, fun hlate => ?_⟩
      have := h.ballots.grant_late _ hg hlate
      simp [fresh] at this
    · simp only [Function.update_of_ne same] at ht
      exact l.quorum t d ht
  · intro t ht
    by_cases same : t = s.term c
    · subst same; simp at ht
    · simp only [Function.update_of_ne same] at ht ⊢
      exact l.none t ht
  · intro t d ht
    by_cases same : t = s.term c
    · subst same; exact ⟨[], by simp⟩
    · simp only [Function.update_of_ne same] at ht ⊢
      exact l.tail t d ht
  · intro d hl
    by_cases same : s.term d = s.term c
    · simp only [same, Function.update_self, Option.some.injEq] at hl ⊢
      rw [hl]
    · simp only [Function.update_of_ne same] at hl ⊢
      exact l.current d hl
  · intro t d ht
    by_cases same : t = s.term c
    · subst same; simp
    · simp only [Function.update_of_ne same] at ht ⊢
      exact l.self t d ht

theorem Invariant.leaders_append {c : N} {e : E}
    (hl : s.leader (s.term c) = some c) (he : termOf e = s.term c) :
    Leaders termOf members
      { s with
        log := Function.update s.log c (s.log c ++ [e])
        leaderLog := Function.update s.leaderLog (s.term c) (s.log c ++ [e])
        acks := insert (c, s.term c, (s.log c).length + 1) s.acks } := by
  have l := h.leaders
  have held := l.current c hl
  refine ⟨l.cand, l.quorum, ?_, ?_, ?_, ?_⟩
  · intro t ht
    by_cases same : t = s.term c
    · subst same
      rw [hl] at ht
      cases ht
    · simp only [Function.update_of_ne same]
      exact l.none t ht
  · intro t d ht
    obtain ⟨X, hX, terms⟩ := l.tail t d ht
    by_cases same : t = s.term c
    · subst same
      refine ⟨X ++ [e], by simp [held, hX], ?_⟩
      intro x hx
      rcases List.mem_append.mp hx with hx | hx
      · exact terms x hx
      · rw [List.mem_singleton.mp hx, he]
    · simp only [Function.update_of_ne same]
      exact ⟨X, hX, terms⟩
  · intro d hd
    by_cases same : d = c
    · subst same; simp
    · -- another node cannot lead the same term
      have apart : s.term d ≠ s.term c := by
        intro terms
        change s.leader (s.term d) = some d at hd
        rw [terms, hl, Option.some.injEq] at hd
        exact same hd.symm
      simp only [Function.update_of_ne same, Function.update_of_ne apart]
      exact l.current d hd
  · intro t d ht
    by_cases same : t = s.term c
    · subst same
      change s.leader (s.term c) = some d at ht
      rw [hl, Option.some.injEq] at ht
      subst ht
      simp
    · simp only [Function.update_of_ne same]
      exact (l.self t d ht).imp_right (Set.mem_insert_of_mem _)

theorem Invariant.leaders_step (step : Step termOf members s s') : Leaders termOf members s' := by
  have ext := h.extends step
  have l := h.leaders
  have current : ∀ c, s.term c ≠ s'.term c → s'.leader = s.leader →
      s'.leader (s'.term c) ≠ some c := by
    intro c moved same hl
    rw [same] at hl
    have := h.ballots.cand_term c _ _ (l.cand _ c hl)
    have := ext.term c
    omega
  have quorum : ∀ t c, s.leader t = some c → ∃ Q, Majority members Q ∧
      ∀ v ∈ Q, ∃ M late, ⟨v, c, t, M, late⟩ ∈ s'.grants ∧ ¬ late := by
    intro t c hc
    obtain ⟨Q, hQ, votes⟩ := l.quorum t c hc
    refine ⟨Q, hQ, fun v hv => ?_⟩
    obtain ⟨M, late, hg, early⟩ := votes v hv
    exact ⟨M, late, ext.grants hg, early⟩
  cases step with
  | adoptTerm v t ht =>
      refine { l with current := ?_ }
      intro c hl
      by_cases hc : c = v
      · subst hc
        refine absurd hl (current c ?_ rfl)
        simpa using ht.ne
      · simp only [Function.update_of_ne hc] at hl ⊢
        exact l.current c hl
  | stand c =>
      refine { l with cand := ?_, quorum := quorum, current := ?_ }
      · exact fun t d hd => Set.mem_insert_of_mem _ (l.cand t d hd)
      · intro d hl
        by_cases hd : d = c
        · subst hd
          refine absurd hl (current d ?_ rfl)
          simp
        · simp only [Function.update_of_ne hd] at hl ⊢
          exact l.current d hl
  | grant v c L hc hv hL => exact { l with quorum := quorum }
  | elect c Q majority hc other votes => exact h.leaders_elect majority hc other votes
  | append c e hl he => exact h.leaders_append hl he
  | accept v m L hl hm hL hcase hkeep =>
      have self := fun t d ht => (l.self t d ht).imp_right (Set.mem_insert_of_mem (v, s.term v, m))
      refine { l with current := ?_, self := self }
      intro c hc
      by_cases same : c = v
      · subst same
        -- a leader hearing its own log keeps all of it
        change s.leader (s.term c) = some c at hc
        have held := l.current c hc
        have keeps := hkeep (s.log c) (List.prefix_refl _) (held ▸ List.prefix_refl _)
        rcases hcase with hcase | hcase
        · simp [hcase, held]
        · rw [hcase] at keeps
          have whole := keeps.eq_of_length_le (by rw [held]; exact (take_le _ _).length_le)
          simp only [Function.update_self, hcase, ← whole]
          exact held
      · simp only [Function.update_of_ne same]
        exact l.current c hc

theorem Invariant.logs_step (step : Step termOf members s s') : Logs termOf s' := by
  have ext := h.extends step
  have g := h.logs
  have log : ∀ v, Coherent termOf s' (s.log v) := fun v => (g.log v).extends ext
  have leaderLog : ∀ t, Coherent termOf s' (s.leaderLog t) := fun t => (g.leaderLog t).extends ext
  have cand : ∀ c t L, (c, t, L) ∈ s.candidacies → Coherent termOf s' L :=
    fun c t L hc => (g.cand c t L hc).extends ext
  have grant : ∀ x ∈ s.grants, Coherent termOf s' x.log := fun x hx => (g.grant x hx).extends ext
  have log_term : ∀ v, ∀ e ∈ s.log v, termOf e ≤ s'.term v :=
    fun v e he => (g.log_term v e he).trans (ext.term v)
  cases step with
  | adoptTerm v t ht => exact ⟨log, leaderLog, cand, grant, log_term, g.cand_term⟩
  | stand c =>
      refine ⟨log, leaderLog, ?_, ?_, log_term, ?_⟩
      · rintro d t L (hd | hd)
        · cases hd; exact log c
        · exact cand d t L hd
      · rintro x (rfl | hx)
        · exact log c
        · exact grant x hx
      · rintro d t L (hd | hd)
        · cases hd
          exact fun e he => Nat.lt_succ_of_le (g.log_term c e he)
        · exact g.cand_term d t L hd
  | grant v c L hc hv hL =>
      refine ⟨log, leaderLog, cand, ?_, log_term, g.cand_term⟩
      rintro x (rfl | hx)
      · exact log v
      · exact grant x hx
  | elect c Q majority hc other votes =>
      refine ⟨log, ?_, cand, grant, log_term, g.cand_term⟩
      intro t
      by_cases same : t = s.term c
      · subst same; simpa using log c
      · simpa only [Function.update_of_ne same] using leaderLog t
  | append c e hl he =>
      -- the new last entry ends the leader's own new log
      have grown := (log c).grow (e := e) (by simp [he])
      refine ⟨?_, ?_, cand, grant, ?_, g.cand_term⟩
      · intro v
        by_cases same : v = c
        · subst same; simpa using grown
        · simpa only [Function.update_of_ne same] using log v
      · intro t
        by_cases same : t = s.term c
        · subst same; simpa using grown
        · simpa only [Function.update_of_ne same] using leaderLog t
      · intro v x hx
        by_cases same : v = c
        · subst same
          simp only [Function.update_self, List.mem_append, List.mem_singleton] at hx
          rcases hx with hx | rfl
          · exact log_term v x hx
          · exact he.le
        · simp only [Function.update_of_ne same] at hx
          exact log_term v x hx
  | accept v m L hl hm hL hcase hkeep =>
      refine ⟨?_, leaderLog, cand, grant, ?_, g.cand_term⟩
      · intro w
        by_cases same : w = v
        · subst same
          simp only [Function.update_self]
          rcases hcase with rfl | rfl
          · exact log w
          · exact (leaderLog _).shorten (take_le _ _)
        · simpa only [Function.update_of_ne same] using log w
      · intro w x hx
        by_cases same : w = v
        · subst same
          simp only [Function.update_self] at hx
          rcases hcase with rfl | rfl
          · exact log_term w x hx
          · exact h.leaderLog_term (List.mem_of_mem_take hx)
        · simp only [Function.update_of_ne same] at hx
          exact log_term w x hx

theorem Invariant.acks_step (step : Step termOf members s s') : Acks s' := by
  have ext := h.extends step
  have a := h.acks
  have term : ∀ v t m, (v, t, m) ∈ s.acks → t ≤ s'.term v :=
    fun v t m ack => (a.term v t m ack).trans (ext.term v)
  have leader : ∀ v t m, (v, t, m) ∈ s.acks →
      (s'.leader t).isSome ∧ m ≤ (s'.leaderLog t).length :=
    fun v t m ack => h.ack_leader ext ack
  have grant : ∀ g ∈ s.grants, ¬ g.late → ∀ t m, (g.voter, t, m) ∈ s.acks → t < g.term →
      ∀ P, P <+: s'.leaderLog t → P.length ≤ m → P <+: g.log ∨ LostBy s' P t (g.term - 1) :=
    fun g hg early t m ack before P hP length => h.ack_granted ext hg early ack before hP length
  have unchanged : s'.log = s.log → ∀ v t m, (v, t, m) ∈ s.acks → ∀ P, P <+: s'.leaderLog t →
      P.length ≤ m → P <+: s'.log v ∨ LostBy s' P t (s'.term v) := by
    intro same v t m ack P hP length
    exact h.ack_kept ext ack hP length (fun held => .inl (by rw [same]; exact held))
  cases step with
  | adoptTerm v t ht => exact ⟨term, leader, unchanged rfl, grant⟩
  | stand c =>
      refine ⟨term, leader, unchanged rfl, ?_⟩
      rintro g (rfl | hg)
      · intro early t m ack before P hP length
        exact h.ack_fresh ext ack (Nat.le_succ _) before early hP length
      · exact grant g hg
  | grant v c L hc hv hL =>
      refine ⟨term, leader, unchanged rfl, ?_⟩
      rintro g (rfl | hg)
      · intro early t m ack before P hP length
        exact h.ack_fresh ext ack (Nat.le_refl _) before early hP length
      · exact grant g hg
  | elect c Q majority hc other votes => exact ⟨term, leader, unchanged rfl, grant⟩
  | append c e hl he =>
      have held := h.leaders.current c hl
      refine ⟨?_, ?_, ?_, ?_⟩
      · rintro v t m (ack | ack)
        · cases ack; exact Nat.le_refl _
        · exact term v t m ack
      · rintro v t m (ack | ack)
        · cases ack; simp [hl]
        · exact leader v t m ack
      · rintro v t m (ack | ack) P hP length
        · cases ack
          simp only [Function.update_self] at hP ⊢
          exact .inl hP
        · refine h.ack_kept ext ack hP length (fun kept => .inl ?_)
          by_cases same : v = c
          · subst same
            simpa using kept.trans (List.prefix_append _ _)
          · simpa only [Function.update_of_ne same] using kept
      · rintro g hg early t m (ack | ack) before
        · -- the acting node's term bounds every vote it has cast
          cases ack
          exact absurd (h.ballots.grant_term g hg) (by omega)
        · exact grant g hg early t m ack before
  | accept v m L hl hm hL hcase hkeep =>
      refine ⟨?_, ?_, ?_, ?_⟩
      · rintro w t k (ack | ack)
        · cases ack; exact Nat.le_refl _
        · exact term w t k ack
      · rintro w t k (ack | ack)
        · cases ack; exact ⟨hl, hm⟩
        · exact leader w t k ack
      · rintro w t k (ack | ack) P hP length
        · cases ack
          simp only [Function.update_self]
          exact .inl ((List.prefix_take_iff.mpr ⟨hP, length⟩).trans hL)
        · refine h.ack_kept ext ack hP length (fun kept => ?_)
          by_cases same : w = v
          · subst same
            simp only [Function.update_self]
            rcases (h.acks.term w t k ack).eq_or_lt with now | earlier
            · exact .inl (hkeep P kept (now ▸ hP))
            · obtain ⟨c, hc⟩ := Option.isSome_iff_exists.mp hl
              by_cases inherited : P <+: s.electionLog (s.term w)
              · obtain ⟨X, hX, -⟩ := h.leaders.tail _ c hc
                have reached : P <+: s.leaderLog (s.term w) :=
                  inherited.trans (hX ▸ List.prefix_append _ _)
                exact .inl (hkeep P kept reached)
              · exact .inr ⟨s.term w, earlier, Nat.le_refl _, hl, inherited⟩
          · simpa only [Function.update_of_ne same] using .inl kept
      · rintro g hg early t k (ack | ack) before
        · cases ack
          exact absurd (h.ballots.grant_term g hg) (by omega)
        · exact grant g hg early t k ack before

theorem Invariant.step (step : Step termOf members s s') : Invariant termOf members s' :=
  ⟨h.ballots_step step, h.leaders_step step, h.logs_step step, h.acks_step step⟩

omit h

theorem reachable_invariant (reachable : (system termOf members).Reachable s) :
    Invariant termOf members s := by
  refine reachable.invariant ?_ (fun s s' _ h step => h.step step)
  rintro _ rfl
  exact Invariant.initial

theorem reachable_extends (reachable : (system termOf members).Reachable s)
    (steps : Relation.ReflTransGen (Step termOf members) s s') : Extends s s' := by
  induction steps with
  | refl => exact Extends.refl s
  | tail before step ih =>
      exact ih.trans ((reachable_invariant (reachable.many before)).extends step)

end ReplicatedLog
