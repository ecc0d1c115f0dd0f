import Mathlib.Data.Set.Insert
import Mathlib.Logic.Function.Basic
import DistributedObjectStorage.Library.Transition
import DistributedObjectStorage.Library.Quorum

/-!
# Leader-based log replication, without messages

Each node owns a term, at most one vote in that term, and a log. What a term's
leader did is kept as history: its log on election, its log now, the votes it
was given and the prefixes that were acknowledged to it. Messages, timers,
roles and volatile indices belong to an implementation, not to this machine.
-/
namespace ReplicatedLog
open Quorum Transition

variable {N E : Type*}

/-- A vote together with the log its voter held. It is late when the term
already had a leader, so that it cannot have helped elect one. -/
structure Grant (N E : Type*) where
  voter : N
  candidate : N
  term : ℕ
  log : List E
  late : Prop

structure State (N E : Type*) where
  term : N → ℕ
  vote : N → Option N
  log : N → List E
  leader : ℕ → Option N
  electionLog : ℕ → List E
  leaderLog : ℕ → List E
  candidacies : Set (N × ℕ × List E)
  grants : Set (Grant N E)
  acks : Set (N × ℕ × ℕ)

/-- Nobody has stood, voted or written anything; terms start at zero. -/
def initial : State N E where
  term := fun _ => 0
  vote := fun _ => none
  log := fun _ => []
  leader := fun _ => none
  electionLog := fun _ => []
  leaderLog := fun _ => []
  candidacies := ∅
  grants := ∅
  acks := ∅

/-- Facts that every step keeps: history is only ever extended. -/
structure Extends (s s' : State N E) : Prop where
  term : ∀ v, s.term v ≤ s'.term v
  leader : ∀ t c, s.leader t = some c → s'.leader t = some c
  electionLog : ∀ t c, s.leader t = some c → s'.electionLog t = s.electionLog t
  leaderLog : ∀ t, s.leaderLog t <+: s'.leaderLog t
  candidacies : s.candidacies ⊆ s'.candidacies
  grants : s.grants ⊆ s'.grants
  acks : s.acks ⊆ s'.acks

theorem Extends.refl (s : State N E) : Extends s s :=
  ⟨fun _ => Nat.le_refl _, fun _ _ h => h, fun _ _ _ => rfl, fun _ => List.prefix_refl _,
    fun _ h => h, fun _ h => h, fun _ h => h⟩

theorem Extends.trans {s s' s'' : State N E} (h : Extends s s') (h' : Extends s' s'') :
    Extends s s'' where
  term v := (h.term v).trans (h'.term v)
  leader t c hc := h'.leader t c (h.leader t c hc)
  electionLog t c hc := (h'.electionLog t c (h.leader t c hc)).trans (h.electionLog t c hc)
  leaderLog t := (h.leaderLog t).trans (h'.leaderLog t)
  candidacies := h.candidacies.trans h'.candidacies
  grants := h.grants.trans h'.grants
  acks := h.acks.trans h'.acks

theorem take_le (L : List E) (m : ℕ) : L.take m <+: L := List.take_prefix m L

variable (termOf : E → ℕ)

def lastTerm (L : List E) : ℕ := (L.getLast?.map termOf).getD 0

@[simp] theorem lastTerm_nil : lastTerm termOf [] = 0 := rfl

@[simp] theorem lastTerm_append (L : List E) (e : E) :
    lastTerm termOf (L ++ [e]) = termOf e := by
  simp [lastTerm]

/-- The voting order: the later last term wins, then the longer log. -/
def UpToDate (L M : List E) : Prop :=
  lastTerm termOf M < lastTerm termOf L ∨
    (lastTerm termOf L = lastTerm termOf M ∧ M.length ≤ L.length)

theorem UpToDate.refl (L : List E) : UpToDate termOf L L := .inr ⟨rfl, Nat.le_refl _⟩

/-- Every entry of the log ends a prefix that the leader of its term also has. -/
def Coherent (s : State N E) (L : List E) : Prop :=
  ∀ P e, P ++ [e] <+: L → P ++ [e] <+: s.leaderLog (termOf e)

section Coherent
variable {termOf} {s s' : State N E} {L M : List E}

theorem Coherent.nil : Coherent termOf s [] := by
  intro P e h
  simp at h

theorem Coherent.shorten (h : Coherent termOf s M) (hL : L <+: M) : Coherent termOf s L :=
  fun P e hP => h P e (hP.trans hL)

theorem Coherent.extends (h : Coherent termOf s L) (hs : Extends s s') : Coherent termOf s' L :=
  fun P e hP => (h P e hP).trans (hs.leaderLog _)

theorem Coherent.grow (h : Coherent termOf s L) {e : E}
    (he : L ++ [e] <+: s.leaderLog (termOf e)) : Coherent termOf s (L ++ [e]) := by
  intro P x hP
  rcases List.prefix_concat_iff.mp hP with whole | part
  · obtain ⟨rfl, last⟩ := List.append_inj' whole rfl
    cases last
    exact he
  · exact h P x part

/-- Equal terms at one position determine everything up to that position. -/
theorem Coherent.matching (hL : Coherent termOf s L) (hM : Coherent termOf s M)
    {P P' : List E} {e e' : E} (hP : P ++ [e] <+: L) (hP' : P' ++ [e'] <+: M)
    (length : P.length = P'.length) (terms : termOf e = termOf e') : P ++ [e] = P' ++ [e'] := by
  have h := hL P e hP
  have h' := hM P' e' hP'
  rw [← terms] at h'
  have same : (P ++ [e]).length = (P' ++ [e']).length := by simp [length]
  exact (List.prefix_of_prefix_length_le h h' same.le).eq_of_length same

end Coherent

variable [DecidableEq N] (members : Finset N)

/-- One atomic action of one node. A node accepting its leader's log keeps
every prefix that its own log already shared with it. -/
inductive Step : State N E → State N E → Prop
  | adoptTerm {s} (v : N) (t : ℕ) : s.term v < t →
      Step s { s with
        term := Function.update s.term v t
        vote := Function.update s.vote v none }
  | stand {s} (c : N) :
      Step s { s with
        term := Function.update s.term c (s.term c + 1)
        vote := Function.update s.vote c (some c)
        candidacies := insert (c, s.term c + 1, s.log c) s.candidacies
        grants := insert ⟨c, c, s.term c + 1, s.log c, (s.leader (s.term c + 1)).isSome⟩ s.grants }
  | grant {s} (v c : N) (L : List E) : (c, s.term v, L) ∈ s.candidacies →
      s.vote v = none ∨ s.vote v = some c → UpToDate termOf L (s.log v) →
      Step s { s with
        vote := Function.update s.vote v (some c)
        grants := insert ⟨v, c, s.term v, s.log v, (s.leader (s.term v)).isSome⟩ s.grants }
  | elect {s} (c : N) (Q : Finset N) : Majority members Q →
      (c, s.term c, s.log c) ∈ s.candidacies → s.leader (s.term c) ≠ some c →
      (∀ v ∈ Q, ∃ M late, ⟨v, c, s.term c, M, late⟩ ∈ s.grants) →
      Step s { s with
        leader := Function.update s.leader (s.term c) (some c)
        electionLog := Function.update s.electionLog (s.term c) (s.log c)
        leaderLog := Function.update s.leaderLog (s.term c) (s.log c) }
  | append {s} (c : N) (e : E) : s.leader (s.term c) = some c → termOf e = s.term c →
      Step s { s with
        log := Function.update s.log c (s.log c ++ [e])
        leaderLog := Function.update s.leaderLog (s.term c) (s.log c ++ [e])
        acks := insert (c, s.term c, (s.log c).length + 1) s.acks }
  | accept {s} (v : N) (m : ℕ) (L : List E) : (s.leader (s.term v)).isSome →
      m ≤ (s.leaderLog (s.term v)).length → (s.leaderLog (s.term v)).take m <+: L →
      L = s.log v ∨ L = (s.leaderLog (s.term v)).take m →
      (∀ P, P <+: s.log v → P <+: s.leaderLog (s.term v) → P <+: L) →
      Step s { s with
        log := Function.update s.log v L
        acks := insert (v, s.term v, m) s.acks }

def system : System (State N E) where
  init := fun s => s = initial
  step := Step termOf members

end ReplicatedLog
