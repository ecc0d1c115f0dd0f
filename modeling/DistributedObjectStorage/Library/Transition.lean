import Mathlib.Data.Nat.Notation
import Mathlib.Logic.Function.Iterate
import Mathlib.Logic.Relation

/-! Transition systems with an explicit initial predicate. Runs are arbitrary
finite step sequences; a forward simulation may answer one step by several. -/
namespace Transition

/-- A state machine is an initial predicate together with one step relation. -/
structure System (σ : Type*) where
  init : σ → Prop
  step : σ → σ → Prop

inductive System.Reachable {σ : Type*} (S : System σ) : σ → Prop
  | start {s} : S.init s → S.Reachable s
  | next {s s'} : S.Reachable s → S.step s s' → S.Reachable s'

variable {σ α : Type*} {S : System σ} {A : System α}

/-- The invariant rule: the property may use reachability of the source state. -/
theorem System.Reachable.invariant {P : σ → Prop} (start : ∀ s, S.init s → P s)
    (next : ∀ s s', S.Reachable s → P s → S.step s s' → P s') {s : σ}
    (reachable : S.Reachable s) : P s := by
  induction reachable with
  | start h => exact start _ h
  | next reached step ih => exact next _ _ reached ih step

theorem System.Reachable.many {s s' : σ} (reachable : S.Reachable s)
    (steps : Relation.ReflTransGen S.step s s') : S.Reachable s' := by
  induction steps with
  | refl => exact reachable
  | tail _ step ih => exact .next ih step

/-- Forward simulation. The abstract state is known to be reachable, so the
relation itself never has to restate the abstract invariants. -/
structure System.Simulates (S : System σ) (A : System α) (rel : σ → α → Prop) : Prop where
  start : ∀ s, S.init s → ∃ a, A.init a ∧ rel s a
  next : ∀ s s' a, A.Reachable a → rel s a → S.step s s' →
    ∃ a', Relation.ReflTransGen A.step a a' ∧ rel s' a'

theorem System.Simulates.reachable {rel : σ → α → Prop} (sim : S.Simulates A rel) {s : σ}
    (reachable : S.Reachable s) : ∃ a, A.Reachable a ∧ rel s a := by
  induction reachable with
  | start h =>
      obtain ⟨a, ha, related⟩ := sim.start _ h
      exact ⟨a, .start ha, related⟩
  | next _ step ih =>
      obtain ⟨a, ha, related⟩ := ih
      obtain ⟨a', steps, related'⟩ := sim.next _ _ a ha related step
      exact ⟨a', ha.many steps, related'⟩

/-! ## Machines with an execution function -/

section Guarded
variable {ι : Type*} (exec : σ → ι → σ) (allowed : σ → ι → Prop)

/-- The runs whose actions all meet a condition on the state they are taken in. -/
def System.guarded (initial : σ) : System σ where
  init := fun s => s = initial
  step := fun s s' => ∃ act, allowed s act ∧ s' = exec s act

/-- The condition holds all along a schedule. -/
def Along : σ → List ι → Prop
  | _, [] => True
  | s, act :: acts => allowed s act ∧ Along (exec s act) acts

instance Along.decidable [∀ s act, Decidable (allowed s act)] :
    ∀ s acts, Decidable (Along exec allowed s acts)
  | _, [] => isTrue trivial
  | s, act :: acts =>
      have : Decidable (Along exec allowed (exec s act) acts) := Along.decidable _ acts
      inferInstanceAs (Decidable (allowed s act ∧ Along exec allowed (exec s act) acts))

variable {exec allowed}

theorem System.Reachable.along {initial s : σ}
    (reachable : (System.guarded exec allowed initial).Reachable s) {acts : List ι}
    (along : Along exec allowed s acts) :
    (System.guarded exec allowed initial).Reachable (acts.foldl exec s) := by
  induction acts generalizing s with
  | nil => exact reachable
  | cons act acts ih => exact ih (.next reachable ⟨act, along.1, rfl⟩) along.2

theorem Along.of_forall {acts : List ι} (fine : ∀ act ∈ acts, ∀ s, allowed s act) (s : σ) :
    Along exec allowed s acts := by
  induction acts generalizing s with
  | nil => trivial
  | cons act acts ih =>
      obtain ⟨first, rest⟩ := List.forall_mem_cons.mp fine
      exact ⟨first s, ih rest _⟩

end Guarded

/-! ## Machines that answer -/

section Answers
variable {ι ο : Type*}

/-- The answers to requests that are served one after another. -/
def outputs (serve : σ → ι → σ × ο) : σ → List ι → List ο
  | _, [] => []
  | s, req :: reqs => (serve s req).2 :: outputs serve (serve s req).1 reqs

/-- Two machines whose states stay related give the same answers exactly when
the condition under which a single answer agrees holds all along. -/
theorem outputs_eq_iff {f : σ → ι → σ × ο} {g : α → ι → α × ο} (rel : σ → α → Prop)
    (fine : α → ι → Prop) {reqs : List ι}
    (next : ∀ req ∈ reqs, ∀ s a, rel s a → rel (f s req).1 (g a req).1)
    (same : ∀ req ∈ reqs, ∀ s a, rel s a → ((f s req).2 = (g a req).2 ↔ fine a req))
    {s : σ} {a : α} (related : rel s a) :
    outputs f s reqs = outputs g a reqs ↔ Along (fun a req => (g a req).1) fine a reqs := by
  induction reqs generalizing s a with
  | nil => exact ⟨fun _ => trivial, fun _ => rfl⟩
  | cons req reqs ih =>
      have later := ih (fun r member => next r (List.mem_cons_of_mem _ member))
        (fun r member => same r (List.mem_cons_of_mem _ member))
        (next req List.mem_cons_self s a related)
      simp only [outputs, List.cons.injEq, same req List.mem_cons_self s a related, later]
      exact Iff.rfl

/-- Two machines whose states stay related answer alike. -/
theorem outputs_eq {f : σ → ι → σ × ο} {g : α → ι → α × ο} (rel : σ → α → Prop) {reqs : List ι}
    (step : ∀ req ∈ reqs, ∀ s a, rel s a → rel (f s req).1 (g a req).1 ∧ (f s req).2 = (g a req).2)
    {s : σ} {a : α} (related : rel s a) : outputs f s reqs = outputs g a reqs :=
  (outputs_eq_iff rel (fun _ _ => True) (fun req member s a rel => (step req member s a rel).1)
    (fun req member s a rel => iff_of_true (step req member s a rel).2 trivial) related).mpr
      (.of_forall (fun _ _ _ => trivial) _)

end Answers

/-! ## Retrying -/

section Retry
variable (attempt : σ → σ × Bool)

/-- The state after a number of attempts. -/
def attempts (k : ℕ) (s : σ) : σ := (fun s => (attempt s).1)^[k] s

variable {attempt}

/-- A measure that every failing attempt lowers bounds the attempts until one
succeeds. -/
theorem attempts_succeed {inv done : σ → Prop} (measure : σ → ℕ)
    (fails : ∀ s, inv s → (attempt s).2 = false →
      inv (attempt s).1 ∧ measure (attempt s).1 < measure s)
    (succeeds : ∀ s, inv s → (attempt s).2 = true → done (attempt s).1)
    (positive : ∀ s, inv s → 0 < measure s) {s : σ} (start : inv s) :
    ∃ k < measure s,
      (∀ i < k, (attempt (attempts attempt i s)).2 = false ∧
        measure (attempts attempt (i + 1) s) < measure (attempts attempt i s)) ∧
      (attempt (attempts attempt k s)).2 = true ∧ done (attempts attempt (k + 1) s) := by
  induction bound : measure s using Nat.strongRecOn generalizing s with
  | _ n ih =>
      subst bound
      cases outcome : (attempt s).2 with
      | true =>
          refine ⟨0, positive s start, ?_, outcome, succeeds s start outcome⟩
          intro i none
          exact absurd none (Nat.not_lt_zero i)
      | false =>
          obtain ⟨kept, lower⟩ := fails s start outcome
          obtain ⟨k, low, before, good, reached⟩ := ih _ lower kept rfl
          refine ⟨k + 1, Nat.lt_of_le_of_lt low lower, ?_, good, reached⟩
          intro i early
          cases i with
          | zero => exact ⟨outcome, lower⟩
          | succ i => exact before i (Nat.lt_of_succ_lt_succ early)

end Retry
end Transition
